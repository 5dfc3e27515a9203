import Bqti.Dht.Routing.FindValue

/-!
# Staying within the closest nodes

Lookups and searches end when the twenty closest candidates were all asked and nothing is in
flight. The nodes that are asked next are taken from all the candidates, though, and as long as
something is in flight the loop goes on. So a node farther away is asked whenever there is room
for more requests than there are unasked nodes among the closest.
-/

namespace Bqti.Dht.Routing

open Bqti.Core Bqti.Torrent

variable {V : Type*}

namespace Lookup

variable {sha256 : Bytes → Hash32} {s s' : Lookup}

/-- The surviving candidates in the order of their distance, without repeated neighbours. -/
def closest (sha256 : Bytes → Hash32) (s : Lookup) : List Node :=
  (s.sorted sha256).destutter fun a b => a.id ≠ b.id

/-- The nodes that were not asked. -/
def unasked (s : Lookup) (nodes : List Node) : List Node :=
  nodes.filter fun n => decide (n.id ∉ s.visited)

/-- Between two states only nodes among the closest candidates are asked, and none if the closest
were asked before. -/
structure StaysNear (s s' : Lookup) : Prop where
  near : (s'.queried.drop s.queried.length).Sublist (s'.candidates.take kbucketMax)
  stops : (∀ n ∈ s'.candidates.take kbucketMax, n.id ∈ s.visited) → s'.queried = s.queried

/-- Where a loop asks within the closest: no candidate farther away is unasked, or there is no
more room than unasked nodes among the closest, or the loop is left. -/
def Confined (sha256 : Bytes → Hash32) (s : Lookup) : Prop :=
  s.unasked ((s.closest sha256).drop kbucketMax) = [] ∨
    alpha - s.inFlight.length ≤ (s.unasked ((s.closest sha256).take kbucketMax)).length ∨
    s.inFlight = [] ∧ ∀ n ∈ (s.sorted sha256).take kbucketMax, n.id ∈ s.visited

instance (sha256 : Bytes → Hash32) (s : Lookup) : Decidable (s.Confined sha256) :=
  inferInstanceAs (Decidable (_ ∨ _ ∨ _ ∧ _))

/-- Nothing is asked. -/
theorem staysNear_of_queried_eq (h : s'.queried = s.queried) : StaysNear s s' where
  near := by
    rw [h, List.drop_length]
    exact List.nil_sublist _
  stops := fun _ => h

/-- Sorting twice is sorting once. -/
theorem sorted_sorted (sha256 : Bytes → Hash32) (s : Lookup) :
    { s with candidates := s.sorted sha256 }.sorted sha256 = s.sorted sha256 := by
  rw [sorted_eq, sorted_eq]
  exact (sortOn_sorted _ _).insertionSort_eq

/-- The nearest unasked candidates are asked, as many as may be in flight. -/
theorem launch_queried (sha256 : Bytes → Hash32) (s : Lookup) :
    (s.launch sha256).queried =
      s.queried ++ (s.unasked (s.closest sha256)).take (alpha - s.inFlight.length) := by
  unfold launch
  simp only
  split <;> rfl

/-- Launching leaves the closest candidates. -/
theorem launch_candidates (sha256 : Bytes → Hash32) (s : Lookup) :
    (s.launch sha256).candidates = s.closest sha256 := by
  unfold launch
  simp only
  split <;> rfl

/-- The unasked nodes are asked in order, the closest first. -/
theorem unasked_closest (sha256 : Bytes → Hash32) (s : Lookup) :
    s.unasked (s.closest sha256) =
      s.unasked ((s.closest sha256).take kbucketMax) ++
        s.unasked ((s.closest sha256).drop kbucketMax) := by
  rw [unasked, unasked, unasked, ← List.filter_append, List.take_append_drop]

/-- The top of the loop asks within the closest precisely when there is no more room than
unasked nodes among them, or nothing else is unasked. -/
theorem staysNear_launch_iff (sha256 : Bytes → Hash32) (s : Lookup) :
    StaysNear s (s.launch sha256) ↔
      s.unasked ((s.closest sha256).drop kbucketMax) = [] ∨
        alpha - s.inFlight.length ≤
          (s.unasked ((s.closest sha256).take kbucketMax)).length := by
  generalize hr : alpha - s.inFlight.length = room
  have hqueried := launch_queried sha256 s
  rw [hr] at hqueried
  have hbatch : (s.launch sha256).queried.drop s.queried.length =
      (s.unasked (s.closest sha256)).take room := by
    rw [hqueried, List.drop_left]
  have hnear : ((s.unasked (s.closest sha256)).take room).Sublist
      ((s.closest sha256).take kbucketMax) ↔
      s.unasked ((s.closest sha256).drop kbucketMax) = [] ∨
        room ≤ (s.unasked ((s.closest sha256).take kbucketMax)).length := by
    constructor
    · intro hsub
      -- What is asked is unasked, so it lies among the unasked ones of the closest.
      have hfilter : ((s.unasked (s.closest sha256)).take room).Sublist
          (s.unasked ((s.closest sha256).take kbucketMax)) := by
        have hall : ((s.unasked (s.closest sha256)).take room).filter
            (fun n => decide (n.id ∉ s.visited)) = (s.unasked (s.closest sha256)).take room :=
          List.filter_eq_self.mpr fun n hn => (List.mem_filter.mp (List.mem_of_mem_take hn)).2
        rw [← hall]
        exact hsub.filter _
      have hlen := hfilter.length_le
      rw [List.length_take, unasked_closest, List.length_append] at hlen
      by_cases hfar : s.unasked ((s.closest sha256).drop kbucketMax) = []
      · exact Or.inl hfar
      · have hpos := List.length_pos_iff.mpr hfar
        exact Or.inr (by omega)
    · rintro (hfar | hroom)
      · rw [unasked_closest, hfar, List.append_nil]
        exact (List.take_sublist _ _).trans List.filter_sublist
      · rw [unasked_closest, List.take_append_of_le_length hroom]
        exact (List.take_sublist _ _).trans List.filter_sublist
  constructor
  · intro h
    have hsub := h.near
    rw [hbatch, launch_candidates] at hsub
    exact hnear.mp hsub
  · intro h
    have hsub := hnear.mpr h
    refine ⟨by rwa [hbatch, launch_candidates], fun hasked => ?_⟩
    rw [launch_candidates] at hasked
    have hnil : (s.unasked (s.closest sha256)).take room = [] := by
      refine List.eq_nil_iff_forall_not_mem.mpr fun n hn => ?_
      have hnew := (List.mem_filter.mp (List.mem_of_mem_take hn)).2
      exact absurd (hasked n (hsub.subset hn)) (of_decide_eq_true hnew)
    rw [hqueried, hnil, List.append_nil]

/-- The bottom of the loop asks within the closest precisely when it is confined. -/
theorem staysNear_conclude_iff (sha256 : Bytes → Hash32) (s : Lookup) :
    StaysNear s (s.conclude sha256) ↔ s.Confined sha256 := by
  have hclosest : { s with candidates := s.sorted sha256 }.closest sha256 = s.closest sha256 := by
    rw [closest, sorted_sorted, closest]
  have hlaunch := staysNear_launch_iff sha256 { s with candidates := s.sorted sha256 }
  rw [hclosest] at hlaunch
  unfold conclude
  simp only
  split
  · rename_i hdone
    simp only [Bool.and_eq_true, List.all_eq_true, decide_eq_true_eq, List.isEmpty_iff] at hdone
    exact ⟨fun _ => Or.inr (Or.inr ⟨hdone.2, hdone.1⟩), fun _ => staysNear_of_queried_eq rfl⟩
  · rename_i hgoing
    have hnot : ¬ (s.inFlight = [] ∧
        ∀ n ∈ (s.sorted sha256).take kbucketMax, n.id ∈ s.visited) := by
      rintro ⟨hflight, hall⟩
      refine hgoing ?_
      simp only [Bool.and_eq_true, List.all_eq_true, decide_eq_true_eq, List.isEmpty_iff]
      exact ⟨hall, hflight⟩
    have hsplit : s.Confined sha256 ↔
        s.unasked ((s.closest sha256).drop kbucketMax) = [] ∨
          alpha - s.inFlight.length ≤
            (s.unasked ((s.closest sha256).take kbucketMax)).length := by
      simp only [Confined, hnot, or_false]
    exact Iff.trans ⟨fun h => ⟨h.near, h.stops⟩, fun h => ⟨h.near, h.stops⟩⟩
      (hlaunch.trans hsplit.symm)

/-! ## Steps and runs -/

/-- The lookup that a step brings to the bottom of the loop, with the answer taken into account. -/
def arrival (sha256 : Bytes → Hash32) (st : RouteTable × Lookup) : LookupLabel V → Option Lookup
  | .complete k result =>
      match st.2.pc, st.2.inFlight[k]? with
      | .waiting, some target =>
          match findNode target result with
          | .error _ => some ({ st.2 with inFlight := st.2.inFlight.eraseIdx k }.drop target)
          | .ok _ => none
      | _, _ => none
  | .advance ok =>
      match st.2.pc with
      | .acknowledging target nodes pc =>
          match ackStep sha256 st.1 0 target ok pc with
          | some (_, _, .finished) => some (st.2.extend st.1.host.id nodes)
          | _ => none
      | _ => none

/-- A step that comes to the bottom of the loop concludes there with the same questions asked. -/
theorem step_of_arrival {st : RouteTable × Lookup} {a : LookupLabel V} {s : Lookup}
    (h : arrival sha256 st a = some s) :
    s.queried = st.2.queried ∧ s.visited = st.2.visited ∧
      ∃ t, step sha256 st a = some (t, s.conclude sha256) := by
  cases a with
  | complete k result =>
    simp only [arrival] at h
    split at h
    · rename_i target hpc hk
      split at h
      · rename_i e hfound
        obtain rfl := Option.some.inj h
        exact ⟨rfl, rfl, st.1.remove sha256 target, by simp only [step, hpc, hk, hfound]⟩
      · cases h
    · cases h
  | advance ok =>
    simp only [arrival] at h
    split at h
    · rename_i target nodes pc hpc
      split at h
      · rename_i t events hack
        obtain rfl := Option.some.inj h
        exact ⟨rfl, rfl, t, by simp only [step, hpc, hack, Option.map_some]⟩
      · cases h
    · cases h

/-- A step that does not come to the bottom of the loop asks nothing. -/
theorem step_of_no_arrival {st st' : RouteTable × Lookup} {a : LookupLabel V}
    (h : arrival sha256 st a = none) (hstep : step sha256 st a = some st') :
    st'.2.queried = st.2.queried := by
  cases a with
  | complete k result =>
    simp only [arrival] at h
    simp only [step] at hstep
    split at hstep
    · rename_i target hpc hk
      simp only [hpc, hk] at h
      split at hstep
      · rename_i e hfound
        simp [hfound] at h
      · obtain rfl := Option.some.inj hstep
        rfl
    · cases hstep
  | advance ok =>
    simp only [arrival] at h
    simp only [step] at hstep
    split at hstep
    · rename_i target nodes pc hpc
      simp only [hpc] at h
      obtain ⟨⟨t, events, pc'⟩, hack, rfl⟩ := Option.map_eq_some_iff.mp hstep
      simp only [hack] at h ⊢
      split
      · cases h
      · rfl
    · cases hstep

/-- The questions and the keys asked before are all that matters of the state before. -/
theorem StaysNear.congr {s₁ s₂ : Lookup} (hqueried : s₁.queried = s₂.queried)
    (hvisited : s₁.visited = s₂.visited) : StaysNear s₁ s' ↔ StaysNear s₂ s' := by
  constructor
  · exact fun h => ⟨hqueried ▸ h.near, hqueried ▸ hvisited ▸ h.stops⟩
  · exact fun h => ⟨hqueried ▸ h.near, hqueried ▸ hvisited ▸ h.stops⟩

/-- A step of a lookup asks within the closest precisely when it arrives confined. -/
theorem step_staysNear_iff (sha256 : Bytes → Hash32) (st : RouteTable × Lookup)
    (a : LookupLabel V) :
    (∀ st', step sha256 st a = some st' → StaysNear st.2 st'.2) ↔
      ∀ s, arrival sha256 st a = some s → s.Confined sha256 := by
  constructor
  · intro hnear s hs
    obtain ⟨hqueried, hvisited, t, hstep⟩ := step_of_arrival hs
    exact (staysNear_conclude_iff sha256 s).mp
      ((StaysNear.congr hqueried hvisited).mpr (hnear _ hstep))
  · intro hconfined st' hstep
    cases harrival : arrival sha256 st a with
    | none => exact staysNear_of_queried_eq (step_of_no_arrival harrival hstep)
    | some s =>
      obtain ⟨hqueried, hvisited, t, hstep'⟩ := step_of_arrival harrival
      obtain rfl := Option.some.inj (hstep'.symm.trans hstep)
      exact (StaysNear.congr hqueried hvisited).mp
        ((staysNear_conclude_iff sha256 s).mpr (hconfined s harrival))

/-- At the start there are no more candidates than the closest. -/
theorem start_near (sha256 : Bytes → Hash32) (table : RouteTable) (key : Key) :
    (start sha256 table key).2.queried.Sublist
      ((start sha256 table key).2.candidates.take kbucketMax) := by
  have hconfined := staysNear_launch_iff sha256
    ⟨key, table.getClosestNodes sha256 key kbucketMax, [], [], .waiting, [], []⟩
  generalize hs : (⟨key, table.getClosestNodes sha256 key kbucketMax, [], [], .waiting, [], []⟩ :
    Lookup) = s at hconfined
  have hlen : (s.closest sha256).length ≤ kbucketMax := by
    refine (List.destutter_sublist _ _).length_le.trans ?_
    rw [(s.sorted_perm sha256).length_eq, ← hs, RouteTable.getClosestNodes_eq]
    exact List.length_take_le _ _
  have hfar : s.unasked ((s.closest sha256).drop kbucketMax) = [] := by
    rw [List.drop_eq_nil_of_le hlen]
    rfl
  have hnear := (hconfined.mpr (Or.inl hfar)).near
  have hqueried : s.queried = [] := by rw [← hs]
  rw [hqueried] at hnear
  simpa only [start, hs, List.length_nil, List.drop_zero] using hnear

end Lookup

namespace FindValue

variable {sha256 : Bytes → Hash32}

/-- The loop that a step brings to its bottom, with the answer taken into account. -/
def arrival (st : RouteTable × FindValue V) (c : Completion V) : Option Lookup :=
  match st.2.found, st.2.loop.pc, st.2.loop.inFlight[c.k]? with
  | none, .waiting, some target =>
      let rest := { st.2.loop with inFlight := st.2.loop.inFlight.eraseIdx c.k }
      match judge target c.result with
      | .value _ => none
      | .peers peers =>
          some (extend st.1.host.id { rest with succeeded := rest.succeeded ++ [target] } peers)
      | .failed => some (rest.drop target)
  | _, _, _ => none

/-- An answer of the search is one of its loop. -/
theorem step_of_arrival (sha256 : Bytes → Hash32) {st : RouteTable × FindValue V}
    {c : Completion V} {s : Lookup}
    (h : arrival st c = some s) :
    s.queried = st.2.loop.queried ∧ s.visited = st.2.loop.visited ∧
      ∃ t completed, step sha256 st c = some (t, ⟨s.conclude sha256, none, completed⟩) := by
  simp only [arrival] at h
  split at h
  · rename_i target hfound hpc hk
    split at h
    · cases h
    · rename_i peers hjudge
      obtain rfl := Option.some.inj h
      refine ⟨rfl, rfl, st.1, st.2.completed ++ [(target, c.result)], ?_⟩
      simp only [step, hfound, hpc, hk, hjudge]
    · rename_i hjudge
      obtain rfl := Option.some.inj h
      refine ⟨rfl, rfl, st.1.remove sha256 target, st.2.completed ++ [(target, c.result)], ?_⟩
      simp only [step, hfound, hpc, hk, hjudge]
  · cases h

/-- A step without an answer asks nobody. -/
theorem step_of_no_arrival {st st' : RouteTable × FindValue V} {c : Completion V}
    (h : arrival st c = none) (hstep : step sha256 st c = some st') :
    st'.2.loop.queried = st.2.loop.queried := by
  simp only [arrival] at h
  simp only [step] at hstep
  split at hstep
  · rename_i target hfound hpc hk
    simp only [hfound, hpc, hk] at h
    split at hstep
    · obtain rfl := Option.some.inj hstep
      rfl
    · rename_i peers hjudge
      simp [hjudge] at h
    · rename_i hjudge
      simp [hjudge] at h
  · cases hstep

/-- A step of a search asks within the closest precisely when it arrives confined. -/
theorem step_staysNear_iff (sha256 : Bytes → Hash32) (st : RouteTable × FindValue V)
    (c : Completion V) :
    (∀ st', step sha256 st c = some st' → Lookup.StaysNear st.2.loop st'.2.loop) ↔
      ∀ s, arrival st c = some s → s.Confined sha256 := by
  constructor
  · intro hnear s hs
    obtain ⟨hqueried, hvisited, t, completed, hstep⟩ := step_of_arrival sha256 hs
    exact (Lookup.staysNear_conclude_iff sha256 s).mp
      ((Lookup.StaysNear.congr hqueried hvisited).mpr (hnear _ hstep))
  · intro hconfined st' hstep
    cases harrival : arrival st c with
    | none => exact Lookup.staysNear_of_queried_eq (step_of_no_arrival harrival hstep)
    | some s =>
      obtain ⟨hqueried, hvisited, t, completed, hstep'⟩ := step_of_arrival sha256 harrival
      obtain rfl := Option.some.inj (hstep'.symm.trans hstep)
      exact (Lookup.StaysNear.congr hqueried hvisited).mp
        ((Lookup.staysNear_conclude_iff sha256 s).mpr (hconfined s harrival))

end FindValue

/-- On any table and for any answers in any order, a lookup and a search ask only nodes among the
closest in all their steps precisely when every step arrives confined. -/
theorem stays_near_iff (sha256 : Bytes → Hash32) (table : RouteTable) (key : Key) :
    (Lookup.start sha256 table key).2.queried.Sublist
      ((Lookup.start sha256 table key).2.candidates.take kbucketMax) ∧
    (∀ labels : List (LookupLabel V),
      Along (Lookup.step sha256)
          (fun st a => ∀ st', Lookup.step sha256 st a = some st' → st.2.StaysNear st'.2)
          (Lookup.start sha256 table key) labels ↔
        Along (Lookup.step sha256)
          (fun st a => ∀ s, Lookup.arrival sha256 st a = some s → s.Confined sha256)
          (Lookup.start sha256 table key) labels) ∧
    ∀ labels : List (Completion V),
      Along (FindValue.step sha256)
          (fun st c => ∀ st', FindValue.step sha256 st c = some st' →
            st.2.loop.StaysNear st'.2.loop)
          (FindValue.start sha256 table key) labels ↔
        Along (FindValue.step sha256)
          (fun st c => ∀ s, FindValue.arrival st c = some s → s.Confined sha256)
          (FindValue.start sha256 table key) labels := by
  refine ⟨Lookup.start_near sha256 table key, fun labels => ?_, fun labels => ?_⟩
  · exact ⟨Along.imp fun st a => (Lookup.step_staysNear_iff sha256 st a).mp,
      Along.imp fun st a => (Lookup.step_staysNear_iff sha256 st a).mpr⟩
  · exact ⟨Along.imp fun st c => (FindValue.step_staysNear_iff sha256 st c).mp,
      Along.imp fun st c => (FindValue.step_staysNear_iff sha256 st c).mpr⟩

/-! ## Candidates in a row

A search whose candidates stand in the order of their distance and answer one after the other
without telling anything new asks them in a row, past the closest. -/

section Row

variable {sha256 : Bytes → Hash32} {key : Key} {row : List Node} {s : Lookup}

/-- The search when so many nodes of the row have answered. -/
def rowStage (key : Key) (row : List Node) (n : Nat) : Lookup where
  key := key
  candidates := row
  visited := (row.take (n + 3)).map (·.id)
  inFlight := (row.drop n).take 3
  pc := .waiting
  queried := row.take (n + 3)
  succeeded := row.take n

/-- The nodes behind those that were asked are unasked. -/
theorem unasked_row (hdistinct : (row.map (·.id)).Nodup) {m : Nat}
    (hvisited : s.visited = (row.take m).map (·.id)) : s.unasked row = row.drop m := by
  have hsplit := List.take_append_drop m row
  have hdisjoint : ∀ n ∈ row.drop m, n.id ∉ s.visited := by
    rw [← hsplit, List.map_append, List.nodup_append] at hdistinct
    intro n hn hv
    rw [hvisited] at hv
    exact hdistinct.2.2 _ hv _ (List.mem_map_of_mem hn) rfl
  have hfront : s.unasked (row.take m) = [] := by
    refine List.filter_eq_nil_iff.mpr fun n hn => ?_
    rw [hvisited, decide_eq_true_eq, not_not]
    exact List.mem_map_of_mem hn
  have hback : s.unasked (row.drop m) = row.drop m :=
    List.filter_eq_self.mpr fun n hn => decide_eq_true (hdisjoint n hn)
  calc s.unasked row = s.unasked (row.take m ++ row.drop m) := by rw [hsplit]
    _ = s.unasked (row.take m) ++ s.unasked (row.drop m) := List.filter_append _ _
    _ = row.drop m := by rw [hfront, hback, List.nil_append]

/-- A loop that is not left asks the next nodes of the row. -/
theorem conclude_row
    (hsorted : row.Pairwise fun a b => s.key.hashed sha256 a ≤ s.key.hashed sha256 b)
    (hdistinct : (row.map (·.id)).Nodup) (hcandidates : s.candidates = row) {m : Nat}
    (hvisited : s.visited = (row.take m).map (·.id)) (hm : m < row.length)
    (hroom : s.inFlight.length < alpha) (hgo : s.inFlight ≠ [] ∨ m < kbucketMax) :
    s.conclude sha256 = s.ask ((row.drop m).take (alpha - s.inFlight.length)) := by
  have hsort : s.sorted sha256 = row := by
    rw [Lookup.sorted_eq, hcandidates]
    exact hsorted.insertionSort_eq
  have hclosest : row.destutter (fun a b => a.id ≠ b.id) = row :=
    List.destutter_of_isChain _ _ (List.pairwise_map.mp hdistinct).isChain
  have hself : { s with candidates := row } = s := by rw [← hcandidates]
  have hunasked := unasked_row hdistinct hvisited
  have hgoing : ¬ (((row.take kbucketMax).all fun n => decide (n.id ∈ s.visited)) &&
      s.inFlight.isEmpty) = true := by
    rw [Bool.and_eq_true, List.all_eq_true, List.isEmpty_iff]
    rintro ⟨hall, hflight⟩
    have hlt := hgo.resolve_left (not_not_intro hflight)
    have hnext : row.get ⟨m, hm⟩ ∈ row.take kbucketMax :=
      List.mem_take_iff_getElem.mpr ⟨m, by omega, rfl⟩
    have hmem : row.get ⟨m, hm⟩ ∈ s.unasked row := by
      rw [hunasked]
      exact List.mem_drop_iff_getElem.mpr ⟨0, by omega, rfl⟩
    exact of_decide_eq_true (List.mem_filter.mp hmem).2 (of_decide_eq_true (hall _ hnext))
  have hne : ¬ (s.ask ((row.drop m).take (alpha - s.inFlight.length))).inFlight.isEmpty = true := by
    rw [List.isEmpty_iff]
    intro hnil
    have hlen := congrArg List.length hnil
    simp only [Lookup.ask, List.length_append, List.length_take, List.length_drop,
      List.length_nil] at hlen
    omega
  unfold Lookup.conclude
  simp only [hsort]
  rw [if_neg hgoing, hself]
  unfold Lookup.launch
  simp only [hsort, hclosest]
  rw [hself]
  change (if (s.ask ((s.unasked row).take (alpha - s.inFlight.length))).inFlight.isEmpty = true
    then (s.ask ((s.unasked row).take (alpha - s.inFlight.length))).finish
    else s.ask ((s.unasked row).take (alpha - s.inFlight.length))) = _
  rw [hunasked, if_neg hne]

/-- A node that tells nothing new. -/
def silentAnswer (node : Node) : Completion V := ⟨0, .ok (.peers node.id [])⟩

/-- The search when the next node of the row has answered. -/
def rowArrival (key : Key) (row : List Node) (n : Nat) : Lookup :=
  { rowStage key row n with
    inFlight := (row.drop (n + 1)).take 2
    succeeded := row.take (n + 1) }

/-- The end of a round leads to the next stage of the row. -/
theorem conclude_rowArrival
    (hsorted : row.Pairwise fun a b => key.hashed sha256 a ≤ key.hashed sha256 b)
    (hdistinct : (row.map (·.id)).Nodup) {n : Nat} (hn : n + 4 ≤ row.length) :
    (rowArrival key row n).conclude sha256 = rowStage key row (n + 1) := by
  have hlen : (rowArrival key row n).inFlight.length = 2 := by
    simp only [rowArrival, List.length_take, List.length_drop]
    omega
  have hne : (rowArrival key row n).inFlight ≠ [] := by
    intro hnil
    rw [hnil] at hlen
    cases hlen
  have hqueried : row.take (n + 1 + 3) = row.take (n + 3) ++ (row.drop (n + 3)).take 1 := by
    rw [← List.take_add]
  have hinFlight : (row.drop (n + 1)).take 3 =
      (row.drop (n + 1)).take 2 ++ (row.drop (n + 3)).take 1 := by
    rw [List.take_add (i := 2) (j := 1), List.drop_drop]
  have hconclude := conclude_row (s := rowArrival key row n) (m := n + 3) hsorted hdistinct rfl
    rfl (by omega) (by rw [hlen]; decide) (Or.inl hne)
  rw [hconclude, hlen]
  simp only [Lookup.ask, rowArrival, rowStage, hqueried, hinFlight, List.map_append, alpha]

/-- The next node of the row answers. -/
theorem step_rowStage
    (hsorted : row.Pairwise fun a b => key.hashed sha256 a ≤ key.hashed sha256 b)
    (hdistinct : (row.map (·.id)).Nodup) {n : Nat} (hn : n + 4 ≤ row.length) (t : RouteTable)
    (completed : List (Node × Except KademliaError (Reply V))) :
    ∃ completed', FindValue.step sha256 (t, ⟨rowStage key row n, none, completed⟩)
        (silentAnswer (row.get ⟨n, by omega⟩)) =
      some (t, ⟨rowStage key row (n + 1), none, completed'⟩) := by
  have hdrop : row.drop n = row.get ⟨n, by omega⟩ :: row.drop (n + 1) :=
    List.drop_eq_getElem_cons (by omega)
  have hsucceeded : row.take (n + 1) = row.take n ++ [row.get ⟨n, by omega⟩] :=
    List.take_succ_eq_append_getElem (by omega)
  rw [← conclude_rowArrival hsorted hdistinct hn]
  refine ⟨completed ++ [(row.get ⟨n, by omega⟩, .ok (.peers (row.get ⟨n, by omega⟩).id []))], ?_⟩
  simp only [FindValue.step, silentAnswer, rowStage, rowArrival, hdrop, hsucceeded,
    List.take_succ_cons, List.getElem?_cons_zero, List.eraseIdx_cons_zero, judge, if_true,
    FindValue.extend, List.map_nil, List.foldl_nil]

/-- So many nodes of the row answer. -/
theorem run_rowStage
    (hsorted : row.Pairwise fun a b => key.hashed sha256 a ≤ key.hashed sha256 b)
    (hdistinct : (row.map (·.id)).Nodup) (t : RouteTable) (m n : Nat)
    (hn : n + m + 3 ≤ row.length)
    (completed : List (Node × Except KademliaError (Reply V))) :
    ∃ completed', run (FindValue.step sha256) (t, ⟨rowStage key row n, none, completed⟩)
        (((row.drop n).take m).map silentAnswer) =
      some (t, ⟨rowStage key row (n + m), none, completed'⟩) := by
  induction m generalizing n completed with
  | zero => exact ⟨completed, rfl⟩
  | succ m ih =>
    have hdrop : row.drop n = row.get ⟨n, by omega⟩ :: row.drop (n + 1) :=
      List.drop_eq_getElem_cons (by omega)
    obtain ⟨completed₁, hstep⟩ := step_rowStage hsorted hdistinct (by omega : n + 4 ≤ row.length)
      t completed
    obtain ⟨completed₂, hrun⟩ := ih (n + 1) (by omega) completed₁
    refine ⟨completed₂, ?_⟩
    rw [hdrop, List.take_succ_cons, List.map_cons]
    refine run_cons_eq_some.mpr ⟨_, hstep, ?_⟩
    rw [hrun, Nat.add_right_comm, Nat.add_assoc]

end Row

/-! ## Twenty contacts and one node farther away -/

/-- A node farther from the host than the contacts. -/
def farNode : Node := ⟨⟨Vector.replicate 32 4, [0]⟩, localAddr 6884⟩

/-- The digest function with the distances of the contacts and of the far node looked up. -/
def farDigest (message : Bytes) : Hash32 :=
  if message = (xor sampleHost.id.id farNode.id.id).toList then ⟨#[
    0xb2, 0xdf, 0xa3, 0xa1, 0x02, 0xc3, 0x72, 0xb0, 0x01, 0xc0, 0xe7, 0xd1,
    0x5d, 0xae, 0xa3, 0xa3, 0xc9, 0xc5, 0xb2, 0x1a, 0x36, 0xac, 0xcc, 0xd0,
    0x29, 0x11, 0x7f, 0x9b, 0xef, 0xac, 0x33, 0x02], rfl⟩
  else sampleDigest message

/-- The digests of the far row are those of SHA-256. -/
theorem farDigest_eq : farDigest = Sha256.digest := by
  funext message
  unfold farDigest
  split
  · rename_i heq
    rw [heq]
    decide +kernel
  · rw [sampleDigest_eq]

/-- Twenty contacts and the far node. -/
def farRow : List Node :=
  (List.range kbucketMax).map (fun i => sampleNode (UInt8.ofNat (i + 1))) ++ [farNode]

/-- The first contact tells of all the others. -/
def farAnswer : Completion Unit :=
  ⟨0, .ok (.peers (sampleNode 1).id (farRow.tail.map fun node => ⟨node.id, node.addr⟩))⟩

/-- The far row is sorted by distance. -/
theorem farRow_sorted : farRow.Pairwise fun a b =>
    sampleHost.id.hashed Sha256.digest a ≤ sampleHost.id.hashed Sha256.digest b := by
  have hfar : sampleHost.id.hashed Sha256.digest (sampleNode 0) ≤
      sampleHost.id.hashed Sha256.digest farNode := by
    rw [← farDigest_eq]
    decide +kernel
  refine List.pairwise_append.mpr ⟨?_, List.pairwise_singleton _ _, ?_⟩
  · exact List.pairwise_map.mpr (List.pairwise_of_forall fun i j => Nat.le_refl _)
  · intro a ha b hb
    obtain ⟨i, -, rfl⟩ := List.mem_map.mp ha
    obtain rfl := List.mem_singleton.mp hb
    exact hfar

/-- The far row has different keys. -/
theorem farRow_distinct : (farRow.map (·.id)).Nodup := by decide +kernel

/-- When the first contact has answered, the search stands at the beginning of the row. -/
theorem farAnswer_rowStage : ∃ t completed,
    FindValue.step Sha256.digest (FindValue.start Sha256.digest sampleTable sampleHost.id)
        farAnswer =
      some (t, ⟨rowStage sampleHost.id farRow 1, none, completed⟩) := by
  have hstep : ((FindValue.step Sha256.digest
      (FindValue.start Sha256.digest sampleTable sampleHost.id) farAnswer).any fun st =>
        decide (st.2.found = none ∧ st.2.loop.key = sampleHost.id ∧
          st.2.loop.candidates = farRow ∧ st.2.loop.visited = (farRow.take 4).map (·.id) ∧
          st.2.loop.inFlight = (farRow.drop 1).take 3 ∧ st.2.loop.pc = .waiting ∧
          st.2.loop.queried = farRow.take 4 ∧ st.2.loop.succeeded = farRow.take 1)) = true := by
    unfold sampleTable
    rw [← farDigest_eq]
    decide +kernel
  obtain ⟨⟨t, loop, found, completed⟩, hst, hfound, hkey, hcandidates, hvisited, hflight, hpc,
    hqueried, hsucceeded⟩ := exists_of_any hstep
  refine ⟨t, completed, ?_⟩
  cases loop
  simp only at hfound hkey hcandidates hvisited hflight hpc hqueried hsucceeded
  subst hfound hkey hcandidates hvisited hflight hpc hqueried hsucceeded
  exact hst

/-- Sixteen more contacts answer and tell nothing; the next answer makes the search ask the far
node, although the twenty closest were all asked. -/
theorem not_stays_near_farRow : ∃ st st',
    run (FindValue.step Sha256.digest)
        (FindValue.start Sha256.digest sampleTable sampleHost.id)
        (farAnswer :: ((farRow.drop 1).take 16).map silentAnswer) = some st ∧
      FindValue.step Sha256.digest st (silentAnswer (sampleNode 18)) = some st' ∧
      st'.2.loop.queried = st.2.loop.queried ++ [farNode] ∧
      ¬ st.2.loop.StaysNear st'.2.loop := by
  obtain ⟨t, completed, hfirst⟩ := farAnswer_rowStage
  obtain ⟨completed₁, hrun⟩ := run_rowStage (V := Unit) farRow_sorted farRow_distinct t 16 1
    (by decide) completed
  obtain ⟨completed₂, hlast⟩ := step_rowStage (V := Unit) (n := 17) farRow_sorted farRow_distinct
    (by decide) t completed₁
  refine ⟨_, _, run_cons_eq_some.mpr ⟨_, hfirst, hrun⟩, hlast, rfl, fun hnear => ?_⟩
  have hasked : ∀ n ∈ (rowStage sampleHost.id farRow 18).candidates.take kbucketMax,
      n.id ∈ (rowStage sampleHost.id farRow 17).visited :=
    fun n hn => List.mem_map_of_mem hn
  have hlen : (rowStage sampleHost.id farRow 18).queried.length =
      (rowStage sampleHost.id farRow 17).queried.length :=
    congrArg List.length (hnear.stops hasked)
  exact absurd hlen (by decide)

end Bqti.Dht.Routing
