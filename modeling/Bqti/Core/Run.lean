import Mathlib.Logic.Basic
import Mathlib.Data.Option.Basic
import Mathlib.Data.List.Basic
import Mathlib.Data.List.Induction
import Mathlib.Logic.Function.Iterate

/-!
# Labelled runs

A system is a partial step function: a label that is not enabled in a state is
rejected. Nondeterminism lives in the labels, so that a run is a list of labels
and every interleaving is one such list. `Along` says that each step of a run
meets a condition on its label and on the state before it.
-/

namespace Bqti.Core

variable {σ ι : Type*}

/-- Execute the labels from left to right; the first disabled label rejects the run. -/
def run (step : σ → ι → Option σ) : σ → List ι → Option σ
  | s, [] => some s
  | s, a :: as => (step s a).bind fun s' => run step s' as

/-- Every executed step meets a condition on the state before it and its label. -/
def Along (step : σ → ι → Option σ) (C : σ → ι → Prop) : σ → List ι → Prop
  | _, [] => True
  | s, a :: as => C s a ∧ ∀ s', step s a = some s' → Along step C s' as

variable {step : σ → ι → Option σ} {s t : σ} {as bs : List ι}

@[simp] theorem run_nil : run step s [] = some s := rfl

/-- A nonempty run is one enabled step followed by the remaining run. -/
theorem run_cons_eq_some {a : ι} :
    run step s (a :: as) = some t ↔ ∃ s', step s a = some s' ∧ run step s' as = some t := by
  simp only [run, Option.bind_eq_some_iff]

/-- Runs compose through their intermediate state. -/
theorem run_append_eq_some :
    run step s (as ++ bs) = some t ↔
      ∃ u, run step s as = some u ∧ run step u bs = some t := by
  induction as generalizing s with
  | nil => simp
  | cons a as ih =>
    simp only [List.cons_append, run_cons_eq_some, ih]
    constructor
    · rintro ⟨s', hs, u, hu, ht⟩
      exact ⟨u, ⟨s', hs, hu⟩, ht⟩
    · rintro ⟨u, ⟨s', hs, hu⟩, ht⟩
      exact ⟨s', hs, u, hu, ht⟩

/-- A run whose end passes a test reaches a state with the tested property. -/
theorem exists_of_any {p : σ → Prop} [DecidablePred p] {last : Option σ}
    (h : (last.any fun t => decide (p t)) = true) : ∃ t, last = some t ∧ p t := by
  obtain ⟨t, ht, hp⟩ := (Option.any_eq_true _ _).mp h
  exact ⟨t, ht, of_decide_eq_true hp⟩

/-- The run rule: what every step preserves holds at the end of every run. -/
theorem run_invariant {Inv : σ → Prop}
    (hstep : ∀ s a s', Inv s → step s a = some s' → Inv s')
    (hs : Inv s) (h : run step s as = some t) : Inv t := by
  induction as generalizing s with
  | nil =>
    have he : s = t := Option.some.inj h
    exact he ▸ hs
  | cons a as ih =>
    obtain ⟨s', ha, hr⟩ := run_cons_eq_some.mp h
    exact ih (hstep s a s' hs ha) hr

/-- Steps that are matched one by one by those of another system are matched by a run of it. -/
theorem exists_run_of_simulation {σ' ι' : Type*} {step' : σ' → ι' → Option σ'}
    {R : σ → σ' → Prop} {C : ι → Prop} {last : σ} {t : σ'}
    (hsim : ∀ s t a s', R s t → C a → step s a = some s' →
      ∃ a' t', step' t a' = some t' ∧ R s' t')
    (hst : R s t) (has : ∀ a ∈ as, C a) (hrun : run step s as = some last) :
    ∃ as' last', run step' t as' = some last' ∧ R last last' := by
  induction as generalizing s t with
  | nil =>
    cases hrun
    exact ⟨[], t, rfl, hst⟩
  | cons a as ih =>
    obtain ⟨hfirst, hrest⟩ := List.forall_mem_cons.mp has
    obtain ⟨s', hstep, hrun'⟩ := run_cons_eq_some.mp hrun
    obtain ⟨a', t', hstep', hst'⟩ := hsim s t a s' hst hfirst hstep
    obtain ⟨as', last', hlast, hR⟩ := ih hst' hrest hrun'
    exact ⟨a' :: as', last', run_cons_eq_some.mpr ⟨t', hstep', hlast⟩, hR⟩

/-- A run is not rejected if no label is, in the states that an invariant holds of. -/
theorem exists_run_of_invariant {Inv : σ → Prop}
    (hstep : ∀ s a, Inv s → ∃ s', step s a = some s' ∧ Inv s') (hs : Inv s) (as : List ι) :
    ∃ t, run step s as = some t ∧ Inv t := by
  induction as generalizing s with
  | nil => exact ⟨s, rfl, hs⟩
  | cons a as ih =>
    obtain ⟨s', ha, hs'⟩ := hstep s a hs
    obtain ⟨t, ht, hinv⟩ := ih hs'
    exact ⟨t, run_cons_eq_some.mpr ⟨s', ha, ht⟩, hinv⟩

/-- Where an invariant makes it a matter of the label alone whether a step is enabled, a run is one
exactly if all its labels are enabled. -/
theorem isSome_run_iff {Inv : σ → Prop} {C : ι → Prop}
    (hstep : ∀ s a, Inv s → ((step s a).isSome ↔ C a))
    (hinv : ∀ s a s', Inv s → step s a = some s' → Inv s') (hs : Inv s) (as : List ι) :
    (run step s as).isSome ↔ ∀ a ∈ as, C a := by
  induction as generalizing s with
  | nil => simp
  | cons a as ih =>
    rw [List.forall_mem_cons, ← hstep s a hs, run]
    cases ha : step s a with
    | none => simp
    | some s' => simpa using ih (hinv s a s' hs ha)

/-- The conditional run rule: an invariant that only the steps meeting `C` preserve
holds at the end of every run all of whose steps meet `C`. -/
theorem run_invariant_along {C : σ → ι → Prop} {Inv : σ → Prop}
    (hstep : ∀ s a s', Inv s → C s a → step s a = some s' → Inv s')
    (hs : Inv s) (hc : Along step C s as) (h : run step s as = some t) : Inv t := by
  induction as generalizing s with
  | nil =>
    have he : s = t := Option.some.inj h
    exact he ▸ hs
  | cons a as ih =>
    obtain ⟨s', ha, hr⟩ := run_cons_eq_some.mp h
    exact ih (hstep s a s' hs hc.1 ha) (hc.2 s' ha) hr

/-- The conditional run rule with a measure: steps that meet `C`, keep an invariant and lower a
measure are no more than the measure. -/
theorem run_measure_along {C : σ → ι → Prop} {Inv : σ → Prop} {μ : σ → Nat}
    (hstep : ∀ s a s', Inv s → C s a → step s a = some s' → Inv s' ∧ μ s' < μ s)
    (hs : Inv s) (hc : Along step C s as) (h : run step s as = some t) :
    Inv t ∧ μ t + as.length ≤ μ s := by
  induction as generalizing s with
  | nil =>
    have he : s = t := Option.some.inj h
    exact ⟨he ▸ hs, by simp [he]⟩
  | cons a as ih =>
    obtain ⟨s', ha, hr⟩ := run_cons_eq_some.mp h
    obtain ⟨hs', hlt⟩ := hstep s a s' hs hc.1 ha
    obtain ⟨ht, hle⟩ := ih hs' (hc.2 s' ha) hr
    refine ⟨ht, ?_⟩
    rw [List.length_cons]
    omega

/-- A condition on the labels alone is met along a run if the labels meet it. -/
theorem along_of_forall {C : ι → Prop} (h : ∀ a ∈ as, C a) : Along step (fun _ a => C a) s as := by
  induction as generalizing s with
  | nil => trivial
  | cons a as ih =>
    exact ⟨h a List.mem_cons_self, fun _ _ => ih fun b hb => h b (List.mem_cons_of_mem a hb)⟩

/-- The states that a run has left behind, oldest first. -/
def visited (step : σ → ι → Option σ) : σ → List ι → List σ
  | _, [] => []
  | s, a :: as =>
      match step s a with
      | none => [s]
      | some s' => s :: visited step s' as

/-- A decidable condition is decidable along a run. -/
instance Along.decidable {C : σ → ι → Prop} [∀ s a, Decidable (C s a)] :
    (s : σ) → (as : List ι) → Decidable (Along step C s as)
  | _, [] => .isTrue trivial
  | s, a :: as =>
      match h : step s a with
      | none => decidable_of_iff (C s a) ⟨fun hc => ⟨hc, fun s' hs => by simp [h] at hs⟩, And.left⟩
      | some s' =>
          have := Along.decidable (C := C) s' as
          decidable_of_iff (C s a ∧ Along step C s' as)
            ⟨fun hc => ⟨hc.1, fun u hu => Option.some.inj (h.symm.trans hu) ▸ hc.2⟩,
              fun hc => ⟨hc.1, hc.2 s' h⟩⟩

/-- Two conditions met along a run are met together. -/
theorem Along.and {C C' : σ → ι → Prop} (h : Along step C s as) (h' : Along step C' s as) :
    Along step (fun s a => C s a ∧ C' s a) s as := by
  induction as generalizing s with
  | nil => trivial
  | cons a as ih => exact ⟨⟨h.1, h'.1⟩, fun s' hs => ih (h.2 s' hs) (h'.2 s' hs)⟩

/-- A weaker condition is met along the same run. -/
theorem Along.imp {C C' : σ → ι → Prop} (hC : ∀ s a, C s a → C' s a) (h : Along step C s as) :
    Along step C' s as := by
  induction as generalizing s with
  | nil => trivial
  | cons a as ih => exact ⟨hC s a h.1, fun s' hs => ih (h.2 s' hs)⟩

/-- A condition met along a whole run is met along each of its initial parts. -/
theorem Along.of_append {C : σ → ι → Prop} (h : Along step C s (as ++ bs)) :
    Along step C s as := by
  induction as generalizing s with
  | nil => trivial
  | cons a as ih => exact ⟨h.1, fun s' hs => ih (h.2 s' hs)⟩

/-- The state that a run reaches meets the condition of the next step. -/
theorem Along.at_step {C : σ → ι → Prop} {a : ι} (h : Along step C s (as ++ a :: bs))
    (hr : run step s as = some t) : C t a := by
  induction as generalizing s with
  | nil =>
    have he : s = t := Option.some.inj hr
    exact he ▸ h.1
  | cons b as ih =>
    obtain ⟨s', hb, hr'⟩ := run_cons_eq_some.mp hr
    exact ih (h.2 s' hb) hr'

/-- A run meets `C` all along and stays good, or breaks `C` once and is trapped. -/
theorem along_or_trapped {C : σ → ι → Prop} {Good Bad : σ → Prop}
    (hgood : ∀ s a s', Good s → step s a = some s' → C s a ∧ Good s' ∨ ¬ C s a ∧ Bad s')
    (hbad : ∀ s a s', Bad s → step s a = some s' → Bad s')
    (hs : Good s) (h : run step s as = some t) :
    Along step C s as ∧ Good t ∨ ¬ Along step C s as ∧ Bad t := by
  induction as generalizing s with
  | nil =>
    have he : s = t := Option.some.inj h
    exact Or.inl ⟨trivial, he ▸ hs⟩
  | cons a as ih =>
    obtain ⟨s', ha, hr⟩ := run_cons_eq_some.mp h
    rcases hgood s a s' hs ha with ⟨hc, hs'⟩ | ⟨hc, hs'⟩
    · rcases ih hs' hr with ⟨halong, ht⟩ | ⟨halong, ht⟩
      · refine Or.inl ⟨⟨hc, fun u hu => ?_⟩, ht⟩
        exact Option.some.inj (ha.symm.trans hu) ▸ halong
      · exact Or.inr ⟨fun hall => halong (hall.2 s' ha), ht⟩
    · exact Or.inr ⟨fun hall => hc hall.1, run_invariant hbad hs' hr⟩

/-- A property that each step keeps exactly under `C` holds in every state of a run
precisely when every step of the run meets `C`. -/
theorem forall_reached_iff_along {C : σ → ι → Prop} {Good P : σ → Prop}
    (hgood : ∀ s, Good s → P s)
    (hstep : ∀ s a s', Good s → step s a = some s' → (P s' ↔ C s a) ∧ (P s' → Good s'))
    (hs : Good s) (h : run step s as = some t) :
    (∀ pre post u, as = pre ++ post → run step s pre = some u → P u) ↔
      Along step C s as := by
  induction as generalizing s with
  | nil =>
    refine ⟨fun _ => trivial, fun _ pre post u he hu => ?_⟩
    obtain ⟨rfl, rfl⟩ := List.nil_eq_append_iff.mp he
    exact Option.some.inj hu ▸ hgood s hs
  | cons a as ih =>
    obtain ⟨s', ha, hr⟩ := run_cons_eq_some.mp h
    obtain ⟨hiff, hnext⟩ := hstep s a s' hs ha
    constructor
    · intro hall
      have hp : P s' := hall [a] as s' rfl (run_cons_eq_some.mpr ⟨s', ha, rfl⟩)
      refine ⟨hiff.mp hp, fun u hu => ?_⟩
      have he : s' = u := Option.some.inj (ha.symm.trans hu)
      subst he
      refine (ih (hnext hp) hr).mp fun pre post u he hu => ?_
      exact hall (a :: pre) post u (by rw [he, List.cons_append])
        (run_cons_eq_some.mpr ⟨s', ha, hu⟩)
    · rintro ⟨hca, halong⟩ pre post u he hu
      cases pre with
      | nil => exact Option.some.inj hu ▸ hgood s hs
      | cons b pre =>
        obtain ⟨rfl, he'⟩ := List.cons.inj he
        obtain ⟨s'', hb, hu'⟩ := run_cons_eq_some.mp hu
        have hss : s' = s'' := Option.some.inj (ha.symm.trans hb)
        subst hss
        exact (ih (hnext (hiff.mpr hca)) hr).mpr (halong s' ha) pre post u he' hu'

/-- Labels that make the same calls may take different steps. A property holds in every state that
a sequence of calls can reach precisely when every call, in every state it can be made in, meets
the condition under which all its steps keep the property. -/
theorem forall_runs_iff {κ : Type*} {call : ι → κ} {C : σ → κ → Prop} {Inv P : σ → Prop}
    (hinv : ∀ s a s', Inv s → step s a = some s' → Inv s')
    (hstep : ∀ s c, Inv s → P s → ((∀ a s', call a = c → step s a = some s' → P s') ↔ C s c))
    (hs : Inv s) (hp : P s) (calls : List κ) :
    (∀ as t, as.map call <+: calls → run step s as = some t → P t) ↔
      ∀ as c t, as.map call ++ [c] <+: calls → run step s as = some t → C t c := by
  constructor
  · intro hall as c t hcalls hrun
    have ht : P t := hall as t ((List.prefix_append _ _).trans hcalls) hrun
    refine (hstep t c (run_invariant hinv hs hrun) ht).mp fun a u ha hu => ?_
    refine hall (as ++ [a]) u ?_ (run_append_eq_some.mpr ⟨t, hrun, ?_⟩)
    · rw [List.map_append, List.map_singleton, ha]
      exact hcalls
    · exact run_cons_eq_some.mpr ⟨u, hu, rfl⟩
  · intro hall as
    induction as using List.reverseRecOn with
    | nil =>
      intro t _ hrun
      exact Option.some.inj hrun ▸ hp
    | append_singleton as a ih =>
      intro t hcalls hrun
      rw [List.map_append, List.map_singleton] at hcalls
      obtain ⟨u, hu, hlast⟩ := run_append_eq_some.mp hrun
      obtain ⟨t', ha, he⟩ := run_cons_eq_some.mp hlast
      obtain rfl := Option.some.inj he
      have hpu : P u := ih u ((List.prefix_append _ _).trans hcalls) hu
      have hc : C u (call a) := hall as (call a) u hcalls hu
      exact (hstep u (call a) (run_invariant hinv hs hu) hpu).mpr hc a t' rfl ha

/-! ## Runs without an end -/

/-- The states of a run that never ends. -/
def Endless (step : σ → ι → Option σ) (s : σ) (states : ℕ → σ) : Prop :=
  states 0 = s ∧ ∀ n, ∃ a, step (states n) a = some (states (n + 1))

/-- If there is always a step that keeps a property, there is a run that never ends. -/
theorem exists_endless {P : σ → Prop} (hstep : ∀ s, P s → ∃ a s', step s a = some s' ∧ P s')
    (hs : P s) : ∃ states, Endless step s states := by
  choose! a next hnext using hstep
  have hall : ∀ n, P (next^[n] s) := by
    intro n
    induction n with
    | zero => exact hs
    | succ n ih =>
      rw [Function.iterate_succ_apply']
      exact (hnext _ ih).2
  refine ⟨fun n => next^[n] s, rfl, fun n => ⟨a (next^[n] s) (hall n), ?_⟩⟩
  simp only [Function.iterate_succ_apply']
  exact (hnext _ (hall n)).1

/-- If every step lowers a measure, every run ends. -/
theorem not_endless_of_measure {μ : σ → Nat} (hstep : ∀ s a s', step s a = some s' → μ s' < μ s)
    (s : σ) : ¬ ∃ states, Endless step s states := by
  rintro ⟨states, hfirst, hnext⟩
  have hlow : ∀ n, μ (states n) + n ≤ μ s := by
    intro n
    induction n with
    | zero => exact Nat.le_of_eq (congrArg μ hfirst)
    | succ n ih =>
      obtain ⟨a, ha⟩ := hnext n
      have hlt := hstep _ _ _ ha
      omega
  have hover := hlow (μ s + 1)
  omega

end Bqti.Core
