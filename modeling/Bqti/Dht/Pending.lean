import Bqti.Dht.Rpc

/-!
# Entries of calls that are over

A call puts its sender into the table before it connects. A response and a timeout take the entry
out again, and so does a failed send; a failed connection or encoding leaves through the question
mark, and a caller that drops a call runs none of its code. Over the handler stand the identifier
that each call was given and the calls that were dropped.
-/

namespace Bqti.Dht

open Bqti.Core

variable {A R : Type*}

namespace CallPc

/-- The identifier that a call works with. -/
def id : CallPc A R → Option Nat
  | .start | .returned _ => none
  | .allocated i | .registered i | .connected i | .waiting i | .failed i _ => some i

/-- The call has put its sender into the table. -/
def Inserted : CallPc A R → Prop
  | .start | .allocated _ => False
  | _ => True

end CallPc

namespace RpcHandler

/-- Where a call stands. -/
def pcAt (h : RpcHandler A R) (k : Nat) : Option (CallPc A R) := h.calls[k]?.map Call.pc

/-- The channel of a call. -/
def slotAt (h : RpcHandler A R) (k : Nat) : Option (Slot A R) := h.calls[k]?.map Call.slot

/-- The identifiers after a step: a call that starts is given the next one. -/
def issue (h : RpcHandler A R) (ids : Nat → Option Nat) : RpcLabel A R → Nat → Option Nat
  | .advance k _ =>
      match h.pcAt k with
      | some .start => Function.update ids k (some h.nextId)
      | _ => ids
  | _ => ids

end RpcHandler

/-- The handler, the identifiers of its calls and the calls whose callers have dropped them. -/
structure Tracked (A R : Type*) where
  handler : RpcHandler A R
  ids : Nat → Option Nat
  dropped : List Nat

/-- A step of the handler, or a caller drops a call. -/
inductive TrackedLabel (A R : Type*)
  | rpc (a : RpcLabel A R)
  | drop (k : Nat)

namespace Tracked

/-- No calls. -/
def new : Tracked A R := ⟨.new, fun _ => none, []⟩

/-- A call that was dropped goes no further. -/
def Live (s : Tracked A R) : RpcLabel A R → Prop
  | .advance k _ | .timeout k => k ∉ s.dropped
  | _ => True

instance (s : Tracked A R) : (a : RpcLabel A R) → Decidable (s.Live a)
  | .advance k _ | .timeout k => inferInstanceAs (Decidable (k ∉ s.dropped))
  | .call _ | .packet _ _ _ | .dispatch _ => .isTrue trivial

/-- The call was made and has neither returned nor been dropped. -/
def running (s : Tracked A R) (k : Nat) : Bool :=
  match s.handler.pcAt k with
  | none | some (.returned _) => false
  | some _ => !s.dropped.contains k

/-- A step of the handler, or the end of a call whose future is dropped. -/
def step (s : Tracked A R) : TrackedLabel A R → Option (Tracked A R)
  | .rpc a =>
      if s.Live a then
        (s.handler.step a).map fun h => { s with handler := h, ids := s.handler.issue s.ids a }
      else none
  | .drop k => if s.running k then some { s with dropped := k :: s.dropped } else none

/-- The call has returned or was dropped. -/
def Over (s : Tracked A R) (k : Nat) : Prop :=
  k ∈ s.dropped ∨ ∃ result, s.handler.pcAt k = some (.returned result)

/-- The table has no entry for the identifier of a call that is over. -/
def Clean (s : Tracked A R) : Prop :=
  ∀ k, s.Over k → ∀ id, s.ids k = some id → s.handler.pending id = none

/-- What a step must find: a call is dropped, or leaves with a failed connection or encoding,
only when the table has no entry for its identifier; no call registers an identifier of a call
that is over, or has taken over that of a call that gets its response. -/
def Leaves (s : Tracked A R) : TrackedLabel A R → Prop
  | .drop k => ∀ id, s.ids k = some id → s.handler.pending id = none
  | .rpc (.advance k ok) =>
      match s.handler.pcAt k with
      | some (.allocated id) => ∀ j, s.Over j → s.ids j ≠ some id
      | some (.registered id) => ok = false → s.handler.pending id = none
      | some (.waiting id) => ∀ j, s.handler.pending id = some j → j = k
      | _ => True
  | .rpc _ => True

end Tracked

/-! ## The calls, one by one -/

namespace RpcHandler

variable {h h' : RpcHandler A R} {j k : Nat} {c : Call A R}

/-- A call stands where the table of calls says. -/
theorem pcAt_eq_of_getElem? (hc : h.calls[k]? = some c) : h.pcAt k = some c.pc := by
  rw [pcAt, hc]
  rfl

/-- Moving a call moves this call only. -/
theorem pcAt_setCall (hc : h.calls[k]? = some c) (pc : CallPc A R) :
    (h.setCall k c pc).pcAt = Function.update h.pcAt k (some pc) := by
  funext j
  by_cases hj : j = k
  · subst hj
    rw [Function.update_self, pcAt, setCall]
    rw [List.getElem?_set_self (List.getElem?_eq_some_iff.mp hc).1]
    rfl
  · rw [Function.update_of_ne hj, pcAt, setCall, List.getElem?_set_ne (Ne.symm hj)]
    rfl

/-- Moving a call changes no channel. -/
theorem slotAt_setCall (hc : h.calls[k]? = some c) (pc : CallPc A R) :
    (h.setCall k c pc).slotAt = h.slotAt := by
  funext j
  have hmap := congrArg (·[j]?) (map_set_eq Call.slot hc (y := { c with pc := pc }) rfl)
  rwa [List.getElem?_map, List.getElem?_map] at hmap

/-- What happens to the channel of a call moves no call. -/
theorem pcAt_modify (f : Call A R → Call A R) (hf : ∀ c, (f c).pc = c.pc) (k : Nat) :
    ({ h with calls := h.calls.modify k f } : RpcHandler A R).pcAt = h.pcAt := by
  funext j
  have hmap := congrArg (·[j]?) (map_modify_eq Call.pc h.calls k f hf)
  rwa [List.getElem?_map, List.getElem?_map] at hmap

/-- Changing a call changes no other channel. -/
theorem slotAt_modify_of_ne (f : Call A R → Call A R) (hj : j ≠ k) :
    ({ h with calls := h.calls.modify k f } : RpcHandler A R).slotAt j = h.slotAt j := by
  change ((h.calls.modify k f)[j]?).map Call.slot = (h.calls[j]?).map Call.slot
  rw [List.getElem?_modify_ne f _ (Ne.symm hj)]

/-- The sender of the call was in the table and is there no longer. -/
structure Cut (h : RpcHandler A R) (k : Nat) : Prop where
  inserted : ∃ pc, h.pcAt k = some pc ∧ pc.Inserted
  absent : ∀ i, h.pending i ≠ some k

/-- What holds in every state, however often identifiers are used: each entry is the sender of a
call that was given the identifier, and whose channel is empty. -/
structure Coherent (h : RpcHandler A R) (ids : Nat → Option Nat) : Prop where
  fresh : ∀ k pc, h.pcAt k = some pc → ¬ pc.Inserted → h.slotAt k = some .empty
  given : ∀ k pc i, h.pcAt k = some pc → pc.id = some i → ids k = some i
  entries : ∀ i k, h.pending i = some k →
    ids k = some i ∧ (∃ pc, h.pcAt k = some pc ∧ pc.Inserted) ∧ h.slotAt k = some .empty
  removed : ∀ d ∈ h.dispatches, ∀ k, d.pc = .removed k → h.Cut k

variable {ids : Nat → Option Nat}

/-- A new handler is coherent. -/
theorem Coherent.new : (RpcHandler.new : RpcHandler A R).Coherent fun _ => none where
  fresh _ _ hpc := by simp [RpcHandler.new, pcAt] at hpc
  given _ _ _ hpc := by simp [RpcHandler.new, pcAt] at hpc
  entries _ _ hp := by simp [RpcHandler.new] at hp
  removed _ hd := absurd hd List.not_mem_nil

/-- A call that has put its sender into the table moves on. -/
theorem Coherent.move (hs : h.Coherent ids) (hc : h.calls[k]? = some c) {pc : CallPc A R}
    (hin : pc.Inserted) (hid : ∀ i, pc.id = some i → ids k = some i) :
    (h.setCall k c pc).Coherent ids := by
  have hkept : ∀ j, (∃ pc, h.pcAt j = some pc ∧ pc.Inserted) →
      ∃ pc', (h.setCall k c pc).pcAt j = some pc' ∧ pc'.Inserted := by
    intro j hj
    rw [pcAt_setCall hc]
    by_cases hjk : j = k
    · exact ⟨pc, by rw [hjk, Function.update_self], hin⟩
    · rwa [Function.update_of_ne hjk]
  refine ⟨fun j pc' hj hout => ?_, fun j pc' i hj hi => ?_, fun i j hp => ?_,
    fun d hd j hj => ?_⟩
  · rw [pcAt_setCall hc] at hj
    rw [slotAt_setCall hc]
    by_cases hjk : j = k
    · rw [hjk, Function.update_self] at hj
      exact absurd (Option.some.inj hj ▸ hin) hout
    · rw [Function.update_of_ne hjk] at hj
      exact hs.fresh j pc' hj hout
  · rw [pcAt_setCall hc] at hj
    by_cases hjk : j = k
    · rw [hjk, Function.update_self] at hj
      rw [hjk]
      exact hid i (Option.some.inj hj ▸ hi)
    · rw [Function.update_of_ne hjk] at hj
      exact hs.given j pc' i hj hi
  · obtain ⟨hi, hinserted, hslot⟩ := hs.entries i j hp
    exact ⟨hi, hkept j hinserted, by rwa [slotAt_setCall hc]⟩
  · obtain ⟨hinserted, habsent⟩ := hs.removed d hd j hj
    exact ⟨hkept j hinserted, habsent⟩

/-- The entry of an identifier is taken out. -/
theorem Coherent.remove (hs : h.Coherent ids) (i : Nat) :
    ({ h with pending := Function.update h.pending i none } : RpcHandler A R).Coherent ids := by
  have hsub : ∀ i' j, Function.update h.pending i none i' = some j → h.pending i' = some j := by
    intro i' j hp
    by_cases hi : i' = i
    · rw [hi, Function.update_self] at hp
      cases hp
    · rwa [Function.update_of_ne hi] at hp
  exact ⟨hs.fresh, hs.given, fun i' j hp => hs.entries i' j (hsub i' j hp), fun d hd j hj =>
    ⟨(hs.removed d hd j hj).inserted, fun i' hp =>
      (hs.removed d hd j hj).absent i' (hsub i' j hp)⟩⟩

/-- A call has at most one entry, so that its sender is gone with it. -/
theorem Coherent.cut (hs : h.Coherent ids) {i : Nat} (hp : h.pending i = some k)
    (value : Option Nat) (hvalue : value ≠ some k) :
    ({ h with pending := Function.update h.pending i value } : RpcHandler A R).Cut k where
  inserted := (hs.entries i k hp).2.1
  absent i' := by
    change Function.update h.pending i value i' ≠ some k
    by_cases hi : i' = i
    · rwa [hi, Function.update_self]
    · rw [Function.update_of_ne hi]
      intro hp'
      have heq := (hs.entries i' k hp').1.symm.trans (hs.entries i k hp).1
      exact hi (Option.some.inj heq)

/-- A channel that is no longer empty has lost its sender. -/
theorem Coherent.absent_of_slot (hs : h.Coherent ids) (hc : h.calls[k]? = some c)
    (hslot : c.slot ≠ .empty) (i : Nat) : h.pending i ≠ some k := by
  intro hp
  have hempty := (hs.entries i k hp).2.2
  rw [slotAt, hc] at hempty
  exact hslot (Option.some.inj hempty)

/-- Moving a call on after its insertion leaves the cut ones cut. -/
theorem Cut.setCall (hcut : h.Cut j) (hc : h.calls[k]? = some c) {pc : CallPc A R}
    (hin : pc.Inserted) : (h.setCall k c pc).Cut j where
  inserted := by
    rw [pcAt_setCall hc]
    by_cases hjk : j = k
    · exact ⟨pc, by rw [hjk, Function.update_self], hin⟩
    · rw [Function.update_of_ne hjk]
      exact hcut.inserted
  absent := hcut.absent

/-- The channel of a call whose sender is gone may be filled or closed. -/
theorem Coherent.modify (hs : h.Coherent ids) (hcut : h.Cut k) {f : Call A R → Call A R}
    (hf : ∀ c, (f c).pc = c.pc) :
    ({ h with calls := h.calls.modify k f } : RpcHandler A R).Coherent ids := by
  have hpc := pcAt_modify (h := h) f hf k
  refine ⟨fun j pc hj hout => ?_, fun j pc i hj hi => ?_, fun i j hp => ?_, fun d hd j hj => ?_⟩
  · rw [hpc] at hj
    have hjk : j ≠ k := by
      rintro rfl
      obtain ⟨pc', hpc', hin⟩ := hcut.inserted
      exact hout (Option.some.inj (hpc'.symm.trans hj) ▸ hin)
    rw [slotAt_modify_of_ne f hjk]
    exact hs.fresh j pc hj hout
  · rw [hpc] at hj
    exact hs.given j pc i hj hi
  · obtain ⟨hi, hin, hslot⟩ := hs.entries i j hp
    have hjk : j ≠ k := fun h => hcut.absent i (h ▸ hp)
    rw [hpc, slotAt_modify_of_ne f hjk]
    exact ⟨hi, hin, hslot⟩
  · obtain ⟨hin, habsent⟩ := hs.removed d hd j hj
    exact ⟨by rwa [hpc], habsent⟩

/-- Dropping a sender that is in the table no longer keeps the handler coherent. -/
theorem Coherent.dropSender (hs : h.Coherent ids) {sender : Option Nat}
    (hcut : ∀ j, sender = some j → h.Cut j) : (h.dropSender sender).Coherent ids := by
  cases sender with
  | none => exact hs
  | some j =>
    refine hs.modify (hcut j rfl) fun c => ?_
    cases c.slot <;> rfl

/-- Dropping a sender moves no call. -/
theorem pcAt_dropSender (sender : Option Nat) : (h.dropSender sender).pcAt = h.pcAt := by
  cases sender with
  | none => rfl
  | some j =>
    refine pcAt_modify _ (fun c => ?_) j
    cases c.slot <;> rfl

/-- Dropping a sender keeps the table. -/
theorem pending_dropSender (sender : Option Nat) : (h.dropSender sender).pending = h.pending := by
  cases sender <;> rfl

/-- The task of a response moves on. -/
theorem Coherent.setDispatch (hs : h.Coherent ids) {d : DispatchTask A R} {pc : DispatchPc}
    (hcut : ∀ k, pc = .removed k → h.Cut k) (j : Nat) :
    ({ h with dispatches := h.dispatches.set j { d with pc := pc } } : RpcHandler A R).Coherent
      ids := by
  refine ⟨hs.fresh, hs.given, hs.entries, fun e he k hk => ?_⟩
  rcases List.mem_or_eq_of_mem_set he with he | rfl
  · exact ⟨(hs.removed e he k hk).inserted, (hs.removed e he k hk).absent⟩
  · exact ⟨(hcut k hk).inserted, (hcut k hk).absent⟩

/-- A call that is in the table is not one that is not. -/
theorem Coherent.ne_of_not_inserted {pc : CallPc A R} (hpc : h.pcAt k = some pc)
    (hout : ¬ pc.Inserted) (hj : ∃ pc, h.pcAt j = some pc ∧ pc.Inserted) : j ≠ k := by
  rintro rfl
  obtain ⟨pc', hpc', hin⟩ := hj
  exact hout (Option.some.inj (hpc'.symm.trans hpc) ▸ hin)

/-- A call that has no entry yet moves, and may get one. -/
theorem Coherent.put (hs : h.Coherent ids) {ids' : Nat → Option Nat} {pc : CallPc A R}
    (hout : ∀ j, (∃ pc, h.pcAt j = some pc ∧ pc.Inserted) → j ≠ k)
    (hpcs : h'.pcAt = Function.update h.pcAt k (some pc))
    (hslots : ∀ j, j ≠ k → h'.slotAt j = h.slotAt j) (hslot : h'.slotAt k = some .empty)
    (hids : ∀ j, j ≠ k → ids' j = ids j) (hid : ∀ i, pc.id = some i → ids' k = some i)
    (hpending : ∀ i j, h'.pending i = some j → h.pending i = some j ∨
      j = k ∧ pc.Inserted ∧ ids' k = some i)
    (hdispatches : h'.dispatches = h.dispatches) : h'.Coherent ids' := by
  refine ⟨fun j pc' hj hnot => ?_, fun j pc' i hj hi => ?_, fun i j hp => ?_,
    fun d hd j hj => ?_⟩
  · by_cases hjk : j = k
    · rw [hjk, hslot]
    · rw [hpcs, Function.update_of_ne hjk] at hj
      rw [hslots j hjk]
      exact hs.fresh j pc' hj hnot
  · rw [hpcs] at hj
    by_cases hjk : j = k
    · rw [hjk, Function.update_self] at hj
      obtain rfl := Option.some.inj hj
      rw [hjk]
      exact hid i hi
    · rw [Function.update_of_ne hjk] at hj
      rw [hids j hjk]
      exact hs.given j pc' i hj hi
  · rcases hpending i j hp with hp | ⟨rfl, hin, hi⟩
    · obtain ⟨hi, hin, hempty⟩ := hs.entries i j hp
      have hjk := hout j hin
      rw [hpcs, hids j hjk, hslots j hjk, Function.update_of_ne hjk]
      exact ⟨hi, hin, hempty⟩
    · rw [hpcs, Function.update_self]
      exact ⟨hi, ⟨pc, rfl, hin⟩, hslot⟩
  · rw [hdispatches] at hd
    obtain ⟨hin, habsent⟩ := hs.removed d hd j hj
    have hjk := hout j hin
    refine ⟨?_, fun i hp => ?_⟩
    · rwa [hpcs, Function.update_of_ne hjk]
    · rcases hpending i j hp with hp | ⟨hkj, -⟩
      · exact habsent i hp
      · exact hjk hkj

/-- A call that starts is given an identifier. -/
theorem Coherent.start (hs : h.Coherent ids) (hc : h.calls[k]? = some c) (hpc : c.pc = .start)
    (next : Nat) :
    ({ h with nextId := next }.setCall k c (.allocated h.nextId)).Coherent
      (Function.update ids k (some h.nextId)) := by
  have hk : h.pcAt k = some .start := hpc ▸ pcAt_eq_of_getElem? hc
  have hslots := slotAt_setCall (h := { h with nextId := next }) hc (.allocated h.nextId)
  refine hs.put (fun j hj => Coherent.ne_of_not_inserted hk id hj) (pcAt_setCall hc _)
    (fun j _ => congrFun hslots j) ?_ (fun j hj => Function.update_of_ne hj _ _)
    (fun i hi => ?_) (fun i j hp => Or.inl hp) rfl
  · exact (congrFun hslots k).trans (hs.fresh k _ hk id)
  · rw [Function.update_self]
    exact hi

/-- A call puts its sender into the table. -/
theorem Coherent.insert (hs : h.Coherent ids) (hc : h.calls[k]? = some c) {i : Nat}
    (hpc : c.pc = .allocated i) :
    ({ h with pending := Function.update h.pending i (some k) }.setCall k c
      (.registered i)).Coherent ids := by
  have hk : h.pcAt k = some (.allocated i) := hpc ▸ pcAt_eq_of_getElem? hc
  have hi : ids k = some i := hs.given k _ i hk rfl
  have hslots := slotAt_setCall
    (h := { h with pending := Function.update h.pending i (some k) }) hc (.registered i)
  refine hs.put (fun j hj => Coherent.ne_of_not_inserted hk id hj) (pcAt_setCall hc _)
    (fun j _ => congrFun hslots j) ?_ (fun _ _ => rfl) (fun i' hi' => ?_) (fun i' j hp => ?_) rfl
  · exact (congrFun hslots k).trans (hs.fresh k _ hk id)
  · exact hi.trans hi'
  · change Function.update h.pending i (some k) i' = some j at hp
    by_cases hii : i' = i
    · rw [hii, Function.update_self] at hp
      exact Or.inr ⟨(Option.some.inj hp).symm, trivial, hii ▸ hi⟩
    · rw [Function.update_of_ne hii] at hp
      exact Or.inl hp

/-- A list with one more member is an updated function. -/
theorem getElem?_concat_map {α β : Type*} (f : α → β) (l : List α) (y : α) :
    (fun j => ((l ++ [y])[j]?).map f) =
      Function.update (fun j => (l[j]?).map f) l.length (some (f y)) := by
  funext j
  by_cases hj : j = l.length
  · rw [hj, Function.update_self, List.getElem?_concat_length]
    rfl
  · rw [Function.update_of_ne hj]
    rcases Nat.lt_or_gt_of_ne hj with hlt | hgt
    · rw [List.getElem?_append_left hlt]
    · rw [List.getElem?_eq_none (by rw [List.length_append, List.length_singleton]; omega),
        List.getElem?_eq_none (Nat.le_of_lt hgt)]

/-- A new call starts. -/
theorem pcAt_call (h : RpcHandler A R) (peer : A) :
    ({ h with calls := h.calls ++ [⟨peer, .empty, .start⟩] } : RpcHandler A R).pcAt =
      Function.update h.pcAt h.calls.length (some .start) :=
  getElem?_concat_map Call.pc h.calls ⟨peer, .empty, .start⟩

/-- A new call has an empty channel. -/
theorem slotAt_call (h : RpcHandler A R) (peer : A) :
    ({ h with calls := h.calls ++ [⟨peer, .empty, .start⟩] } : RpcHandler A R).slotAt =
      Function.update h.slotAt h.calls.length (some .empty) :=
  getElem?_concat_map Call.slot h.calls ⟨peer, .empty, .start⟩

/-- A new call has no entry. -/
theorem Coherent.call (hs : h.Coherent ids) (peer : A) :
    ({ h with calls := h.calls ++ [⟨peer, .empty, .start⟩] } : RpcHandler A R).Coherent ids := by
  refine hs.put ?_ (pcAt_call h peer) (fun j hj => ?_) ?_ (fun _ _ => rfl)
    (fun i hi => by cases hi) (fun i j hp => Or.inl hp) rfl
  · rintro j ⟨pc, hpc, -⟩ rfl
    rw [pcAt, List.getElem?_length] at hpc
    cases hpc
  · rw [slotAt_call, Function.update_of_ne hj]
  · rw [slotAt_call, Function.update_self]

/-- Only a call that starts is given an identifier. -/
theorem issue_advance (hc : h.calls[k]? = some c) (hpc : c.pc ≠ .start) (ok : Bool) :
    h.issue ids (.advance k ok) = ids := by
  rw [issue, pcAt_eq_of_getElem? hc]
  cases hcase : c.pc <;> first | rfl | exact absurd hcase hpc

/-- Every step of a call keeps the handler coherent. -/
theorem Coherent.stepCall (hs : h.Coherent ids) (hc : h.calls[k]? = some c) {ok : Bool}
    (hstep : h.stepCall k c ok = some h') : h'.Coherent (h.issue ids (.advance k ok)) := by
  have hk := pcAt_eq_of_getElem? hc
  have hgiven : ∀ i, c.pc.id = some i → ids k = some i := fun i hi => hs.given k c.pc i hk hi
  cases hpc : c.pc with
  | start =>
    simp only [RpcHandler.stepCall, hpc, Option.some.injEq] at hstep
    rw [issue, hk, hpc, ← hstep]
    exact hs.start hc hpc _
  | allocated i =>
    simp only [RpcHandler.stepCall, hpc, Option.some.injEq] at hstep
    rw [issue_advance hc (by simp [hpc]), ← hstep]
    refine (hs.insert hc hpc).dropSender fun j hj => ?_
    have hjk : j ≠ k := Coherent.ne_of_not_inserted (hpc ▸ hk) (by simp [CallPc.Inserted])
      (hs.entries i j hj).2.1
    exact (hs.cut hj (some k) (by simpa using hjk.symm)).setCall hc trivial
  | registered i =>
    rw [issue_advance hc (by simp [hpc])]
    simp only [RpcHandler.stepCall, hpc] at hstep
    split at hstep <;> rw [← Option.some.inj hstep]
    · exact hs.move hc trivial fun i' hi => hgiven i' (by rw [hpc]; exact hi)
    · exact hs.move hc trivial fun i' hi => by cases hi
  | connected i =>
    rw [issue_advance hc (by simp [hpc])]
    simp only [RpcHandler.stepCall, hpc] at hstep
    split at hstep <;> rw [← Option.some.inj hstep] <;>
      exact hs.move hc trivial fun i' hi => hgiven i' (by rw [hpc]; exact hi)
  | waiting i =>
    rw [issue_advance hc (by simp [hpc])]
    simp only [RpcHandler.stepCall, hpc] at hstep
    split at hstep
    · cases hstep
    all_goals
      rw [← Option.some.inj hstep]
      exact hs.move hc trivial fun i' hi => by cases hi
  | failed i error =>
    simp only [RpcHandler.stepCall, hpc, Option.some.injEq] at hstep
    rw [issue_advance hc (by simp [hpc]), ← hstep]
    refine Coherent.dropSender ?_ fun j hj => ?_
    · exact (hs.remove i).move hc trivial fun i' hi => by cases hi
    · exact (hs.cut hj none (by simp)).setCall hc trivial
  | returned result =>
    simp only [RpcHandler.stepCall, hpc] at hstep
    cases hstep

/-- Every step of the handler keeps the entries coherent. -/
theorem Coherent.step (hs : h.Coherent ids) {a : RpcLabel A R} (hstep : h.step a = some h') :
    h'.Coherent (h.issue ids a) := by
  cases a with
  | call peer =>
    obtain rfl := Option.some.inj hstep
    exact hs.call peer
  | packet source id response =>
    obtain rfl := Option.some.inj hstep
    refine ⟨hs.fresh, hs.given, hs.entries, fun d hd k hk => ?_⟩
    rcases List.mem_append.mp hd with hd | hd
    · exact ⟨(hs.removed d hd k hk).inserted, (hs.removed d hd k hk).absent⟩
    · rw [List.mem_singleton.mp hd] at hk
      cases hk
  | advance k ok =>
    obtain ⟨c, hc, hstep⟩ := Option.bind_eq_some_iff.mp hstep
    exact hs.stepCall hc hstep
  | timeout k =>
    obtain ⟨c, hc, hstep⟩ := Option.bind_eq_some_iff.mp hstep
    split at hstep
    · rename_i i hpc
      rw [← Option.some.inj hstep]
      exact hs.move hc trivial fun i' hi =>
        hs.given k c.pc i' (pcAt_eq_of_getElem? hc) (by rw [hpc]; exact hi)
    · cases hstep
  | dispatch j =>
    obtain ⟨d, hd, hstep⟩ := Option.bind_eq_some_iff.mp hstep
    cases hpc : d.pc with
    | start =>
      simp only [stepDispatch, hpc] at hstep
      split at hstep
      · rw [← Option.some.inj hstep]
        exact hs.setDispatch (fun k hk => by cases hk) j
      · rename_i k hp
        rw [← Option.some.inj hstep]
        refine (hs.remove d.id).setDispatch (fun k' hk => ?_) j
        obtain rfl := DispatchPc.removed.inj hk
        exact hs.cut hp none (by simp)
    | removed k =>
      simp only [stepDispatch, hpc, Option.some.injEq] at hstep
      rw [← hstep]
      have hcut := hs.removed d (List.mem_of_getElem? hd) k hpc
      refine Coherent.setDispatch ?_ (fun k' hk => by cases hk) j
      refine hs.modify hcut fun c => ?_
      split <;> rfl
    | finished =>
      simp only [stepDispatch, hpc] at hstep
      cases hstep

end RpcHandler

/-! ## Which steps leave an entry behind -/

namespace Tracked

variable {s s' : Tracked A R} {k : Nat}

/-- A step of the handler is one of a call that lives. -/
theorem of_step_rpc {a : RpcLabel A R} (h : s.step (.rpc a) = some s') :
    s.Live a ∧ ∃ h', s.handler.step a = some h' ∧
      s' = ⟨h', s.handler.issue s.ids a, s.dropped⟩ := by
  simp only [step] at h
  split at h
  · rename_i hlive
    obtain ⟨h', hstep, rfl⟩ := Option.map_eq_some_iff.mp h
    exact ⟨hlive, h', hstep, rfl⟩
  · cases h

/-- Dropping a call changes nothing else. -/
theorem of_step_drop (h : s.step (.drop k) = some s') :
    s' = { s with dropped := k :: s.dropped } := by
  simp only [step] at h
  split at h
  · exact (Option.some.inj h).symm
  · cases h

/-- A call that moves is over afterwards exactly if it was before. -/
theorem over_move {h' : RpcHandler A R} {ids' : Nat → Option Nat} {pc : CallPc A R}
    (hpcs : h'.pcAt = Function.update s.handler.pcAt k (some pc))
    (hold : ∀ result, s.handler.pcAt k ≠ some (.returned result))
    (hnew : ∀ result, pc ≠ .returned result) (j : Nat) :
    (⟨h', ids', s.dropped⟩ : Tracked A R).Over j ↔ s.Over j := by
  rw [Over, Over, hpcs]
  refine or_congr_right ?_
  by_cases hjk : j = k
  · rw [hjk, Function.update_self]
    exact iff_of_false (fun ⟨result, h⟩ => hnew result (Option.some.inj h))
      fun ⟨result, h⟩ => hold result h
  · rw [Function.update_of_ne hjk]

/-- A call that returns is over, and the others are over exactly if they were before. -/
theorem over_return {h' : RpcHandler A R} {ids' : Nat → Option Nat}
    {result : Except RpcError (Received A R)}
    (hpcs : h'.pcAt = Function.update s.handler.pcAt k (some (.returned result))) (j : Nat) :
    (⟨h', ids', s.dropped⟩ : Tracked A R).Over j ↔ s.Over j ∨ j = k := by
  rw [Over, Over, hpcs]
  by_cases hjk : j = k
  · rw [hjk, Function.update_self]
    exact iff_of_true (Or.inr ⟨result, rfl⟩) (Or.inr rfl)
  · rw [Function.update_of_ne hjk]
    exact ⟨Or.inl, fun h => h.resolve_right hjk⟩

/-- No call ends, and no entry is made. -/
theorem Clean.mono (hs : s.Clean) (hover : ∀ j, s'.Over j → s.Over j)
    (hids : ∀ j, s'.Over j → s'.ids j = s.ids j)
    (hpending : ∀ i, s.handler.pending i = none → s'.handler.pending i = none) : s'.Clean := by
  intro j hj i hi
  rw [hids j hj] at hi
  exact hpending i (hs j (hover j hj) i hi)

/-- A call ends and leaves the table as it is. -/
theorem clean_over_iff (hs : s.Clean) (hover : ∀ j, s'.Over j ↔ s.Over j ∨ j = k)
    (hids : s'.ids = s.ids) (hpending : s'.handler.pending = s.handler.pending) :
    s'.Clean ↔ ∀ i, s.ids k = some i → s.handler.pending i = none := by
  rw [Clean, hids, hpending]
  constructor
  · intro h
    exact h k ((hover k).mpr (Or.inr rfl))
  · intro h j hj
    rcases (hover j).mp hj with hj | rfl
    · exact hs j hj
    · exact h

/-- An entry is made. -/
theorem clean_insert_iff (hs : s.Clean) {i : Nat} (hover : ∀ j, s'.Over j ↔ s.Over j)
    (hids : s'.ids = s.ids)
    (hpending : s'.handler.pending = Function.update s.handler.pending i (some k)) :
    s'.Clean ↔ ∀ j, s.Over j → s.ids j ≠ some i := by
  rw [Clean, hids, hpending]
  constructor
  · intro h j hj hi
    have hnone := h j ((hover j).mpr hj) i hi
    rw [Function.update_self] at hnone
    cases hnone
  · intro h j hj i' hi
    have hj := (hover j).mp hj
    have hne : i' ≠ i := fun he => h j hj (he ▸ hi)
    rw [Function.update_of_ne hne]
    exact hs j hj i' hi

section Call

variable {c : Call A R}

/-- A call that stands elsewhere has not returned. -/
theorem ne_returned (hc : s.handler.calls[k]? = some c) (h : ∀ result, c.pc ≠ .returned result)
    (result : Except RpcError (Received A R)) : s.handler.pcAt k ≠ some (.returned result) := by
  rw [RpcHandler.pcAt_eq_of_getElem? hc]
  exact fun he => h result (Option.some.inj he)

/-- A call goes on. -/
theorem Clean.setCall (hs : s.Clean) (hc : s.handler.calls[k]? = some c)
    (hold : ∀ result, c.pc ≠ .returned result) {pc : CallPc A R}
    (hnew : ∀ result, pc ≠ .returned result) :
    (⟨s.handler.setCall k c pc, s.ids, s.dropped⟩ : Tracked A R).Clean :=
  hs.mono (fun j => (over_move (RpcHandler.pcAt_setCall hc pc) (ne_returned hc hold) hnew j).mp)
    (fun _ _ => rfl) fun _ hi => hi

/-- A call that starts is given an identifier, and is not over. -/
theorem Clean.start (hs : s.Clean) (hc : s.handler.calls[k]? = some c) (hpc : c.pc = .start)
    (hlive : k ∉ s.dropped) (next : Nat) :
    (⟨{ s.handler with nextId := next }.setCall k c (.allocated s.handler.nextId),
      Function.update s.ids k (some s.handler.nextId), s.dropped⟩ : Tracked A R).Clean := by
  have hold := ne_returned hc (by simp [hpc])
  have hpcs := RpcHandler.pcAt_setCall (h := { s.handler with nextId := next }) hc
    (.allocated s.handler.nextId)
  refine hs.mono (fun j => (over_move hpcs hold (by simp) j).mp) (fun j hj => ?_) fun i hi => hi
  have hjk : j ≠ k := by
    rintro rfl
    rcases (over_move hpcs hold (by simp) j).mp hj with hj | ⟨result, hresult⟩
    · exact hlive hj
    · exact hold result hresult
  exact Function.update_of_ne hjk _ _

/-- A call returns and leaves the table as it is. -/
theorem clean_return_iff (hs : s.Clean) (hc : s.handler.calls[k]? = some c) {i : Nat}
    (hi : s.ids k = some i) (result : Except RpcError (Received A R)) :
    (⟨s.handler.setCall k c (.returned result), s.ids, s.dropped⟩ : Tracked A R).Clean ↔
      s.handler.pending i = none := by
  rw [clean_over_iff hs (over_return (RpcHandler.pcAt_setCall hc _)) rfl rfl, hi]
  constructor
  · exact fun h => h i rfl
  · rintro h i' hi'
    exact Option.some.inj hi' ▸ h

/-- A call that has failed takes the entry out and returns. -/
theorem Clean.fail (hs : s.Clean) (hc : s.handler.calls[k]? = some c) {i : Nat}
    (hi : s.ids k = some i) (error : RpcError) :
    (⟨({ s.handler with pending := Function.update s.handler.pending i none }.setCall k c
      (.returned (.error error))).dropSender (s.handler.pending i), s.ids, s.dropped⟩ :
        Tracked A R).Clean := by
  have hpcs := RpcHandler.pcAt_setCall
    (h := { s.handler with pending := Function.update s.handler.pending i none }) hc
    (.returned (.error error))
  intro j hj i' hi'
  rw [RpcHandler.pending_dropSender]
  change Function.update s.handler.pending i none i' = none
  by_cases hii : i' = i
  · rw [hii, Function.update_self]
  · rw [Function.update_of_ne hii]
    rcases (over_return ((RpcHandler.pcAt_dropSender _).trans hpcs) j).mp hj with hj | rfl
    · exact hs j hj i' hi'
    · rw [hi] at hi'
      exact absurd (Option.some.inj hi').symm hii

/-- Where the channel is no longer empty, an entry can only be that of another call. -/
theorem pending_eq_none_iff (hcoherent : s.handler.Coherent s.ids)
    (hc : s.handler.calls[k]? = some c) (hslot : c.slot ≠ .empty) (i : Nat) :
    s.handler.pending i = none ↔ ∀ j, s.handler.pending i = some j → j = k := by
  constructor
  · intro h j hj
    rw [h] at hj
    cases hj
  · intro h
    refine Option.eq_none_iff_forall_ne_some.mpr fun j hj => ?_
    exact hcoherent.absent_of_slot hc hslot i (h j hj ▸ hj)

/-- A step of a call that goes on keeps the table clean just when its condition is met. -/
theorem clean_stepCall_iff (hs : s.Clean) (hcoherent : s.handler.Coherent s.ids)
    (hlive : k ∉ s.dropped) (hc : s.handler.calls[k]? = some c) {ok : Bool}
    {h' : RpcHandler A R} (hstep : s.handler.stepCall k c ok = some h') :
    (⟨h', s.handler.issue s.ids (.advance k ok), s.dropped⟩ : Tracked A R).Clean ↔
      s.Leaves (.rpc (.advance k ok)) := by
  have hk := RpcHandler.pcAt_eq_of_getElem? hc
  have hgiven : ∀ {i}, c.pc.id = some i → s.ids k = some i := hcoherent.given k c.pc _ hk
  cases hpc : c.pc with
  | start =>
    simp only [RpcHandler.stepCall, hpc, Option.some.injEq] at hstep
    simp only [Leaves, RpcHandler.issue, hk, hpc, iff_true, ← hstep]
    exact hs.start hc hpc hlive _
  | allocated i =>
    simp only [RpcHandler.stepCall, hpc, Option.some.injEq] at hstep
    rw [RpcHandler.issue_advance hc (by simp [hpc]), ← hstep]
    simp only [Leaves, hk, hpc]
    have hpcs := RpcHandler.pcAt_setCall
      (h := { s.handler with pending := Function.update s.handler.pending i (some k) }) hc
      (.registered i)
    refine clean_insert_iff (k := k) hs (fun j => ?_) rfl (RpcHandler.pending_dropSender _)
    exact over_move ((RpcHandler.pcAt_dropSender _).trans hpcs) (ne_returned hc (by simp [hpc]))
      (by simp) j
  | registered i =>
    rw [RpcHandler.issue_advance hc (by simp [hpc])]
    simp only [RpcHandler.stepCall, hpc] at hstep
    simp only [Leaves, hk, hpc]
    split at hstep <;> rename_i hok <;> rw [← Option.some.inj hstep]
    · exact iff_of_true (hs.setCall hc (by simp [hpc]) (by simp)) (by simp [hok])
    · rw [clean_return_iff hs hc (hgiven (by rw [hpc]; rfl))]
      simp [hok]
  | connected i =>
    rw [RpcHandler.issue_advance hc (by simp [hpc])]
    simp only [RpcHandler.stepCall, hpc] at hstep
    simp only [Leaves, hk, hpc, iff_true]
    split at hstep <;> rw [← Option.some.inj hstep] <;>
      exact hs.setCall hc (by simp [hpc]) (by simp)
  | waiting i =>
    rw [RpcHandler.issue_advance hc (by simp [hpc])]
    simp only [Leaves, hk, hpc]
    simp only [RpcHandler.stepCall, hpc] at hstep
    split at hstep
    · cases hstep
    all_goals
      rename_i hslot
      rw [← Option.some.inj hstep, clean_return_iff hs hc (hgiven (by rw [hpc]; rfl))]
      exact pending_eq_none_iff hcoherent hc (by simp [hslot]) i
  | failed i error =>
    simp only [RpcHandler.stepCall, hpc, Option.some.injEq] at hstep
    rw [RpcHandler.issue_advance hc (by simp [hpc]), ← hstep]
    simp only [Leaves, hk, hpc, iff_true]
    exact hs.fail hc (hgiven (by rw [hpc]; rfl)) error
  | returned result =>
    simp only [RpcHandler.stepCall, hpc] at hstep
    cases hstep

end Call

/-- The task of a response ends no call and makes no entry. -/
theorem clean_dispatch (hs : s.Clean) {j : Nat} {d : DispatchTask A R} {h' : RpcHandler A R}
    (hstep : s.handler.stepDispatch j d = some h') :
    (⟨h', s.ids, s.dropped⟩ : Tracked A R).Clean := by
  cases hpc : d.pc with
  | start =>
    simp only [RpcHandler.stepDispatch, hpc] at hstep
    split at hstep <;> rw [← Option.some.inj hstep]
    · exact hs.mono (fun _ hj => hj) (fun _ _ => rfl) fun _ hi => hi
    · refine hs.mono (fun _ hj => hj) (fun _ _ => rfl) fun i hi => ?_
      change Function.update s.handler.pending d.id none i = none
      by_cases hid : i = d.id
      · rw [hid, Function.update_self]
      · rwa [Function.update_of_ne hid]
  | removed k =>
    simp only [RpcHandler.stepDispatch, hpc, Option.some.injEq] at hstep
    have hpcs : h'.pcAt = s.handler.pcAt := by
      rw [← hstep]
      refine RpcHandler.pcAt_modify _ (fun c => ?_) k
      split <;> rfl
    refine hs.mono (fun j hj => ?_) (fun _ _ => rfl) fun i hi => ?_
    · rwa [Over, hpcs] at hj
    · rw [← hstep]
      exact hi
  | finished =>
    simp only [RpcHandler.stepDispatch, hpc] at hstep
    cases hstep

/-- In a state that is clean a step leaves no entry behind just when its condition is met. -/
theorem clean_step_iff (hs : s.Clean) (hcoherent : s.handler.Coherent s.ids)
    {a : TrackedLabel A R} (hstep : s.step a = some s') : s'.Clean ↔ s.Leaves a := by
  cases a with
  | drop k =>
    obtain rfl := of_step_drop hstep
    refine clean_over_iff (k := k) hs (fun j => ?_) rfl rfl
    rw [Over, Over, List.mem_cons, or_assoc, or_comm]
  | rpc a =>
    obtain ⟨hlive, h', hmove, rfl⟩ := of_step_rpc hstep
    cases a with
    | call peer =>
      obtain rfl := Option.some.inj hmove
      refine iff_of_true (hs.mono (fun j => ?_) (fun _ _ => rfl) fun _ hi => hi) trivial
      refine (over_move (s.handler.pcAt_call peer) (fun result hresult => ?_) (by simp) j).mp
      rw [RpcHandler.pcAt, List.getElem?_length] at hresult
      cases hresult
    | packet source id response =>
      obtain rfl := Option.some.inj hmove
      exact iff_of_true (hs.mono (fun _ hj => hj) (fun _ _ => rfl) fun _ hi => hi) trivial
    | advance k ok =>
      obtain ⟨c, hc, hmove⟩ := Option.bind_eq_some_iff.mp hmove
      exact clean_stepCall_iff hs hcoherent hlive hc hmove
    | timeout k =>
      obtain ⟨c, hc, hmove⟩ := Option.bind_eq_some_iff.mp hmove
      split at hmove
      · rename_i i hpc
        rw [← Option.some.inj hmove]
        exact iff_of_true (hs.setCall hc (by simp [hpc]) (by simp)) trivial
      · cases hmove
    | dispatch j =>
      obtain ⟨d, -, hmove⟩ := Option.bind_eq_some_iff.mp hmove
      exact iff_of_true (clean_dispatch hs hmove) trivial

/-- Every step keeps the entries coherent. -/
theorem coherent_step (hcoherent : s.handler.Coherent s.ids) {a : TrackedLabel A R}
    (hstep : s.step a = some s') : s'.handler.Coherent s'.ids := by
  cases a with
  | drop k =>
    obtain rfl := of_step_drop hstep
    exact hcoherent
  | rpc a =>
    obtain ⟨-, h', hmove, rfl⟩ := of_step_rpc hstep
    exact hcoherent.step hmove

/-- In every run, with any calls, responses, time-outs and dropped calls in any order, the table
never has an entry for the identifier of a call that is over precisely when every step meets its
condition. -/
theorem clean_iff (labels : List (TrackedLabel A R)) {t : Tracked A R}
    (hrun : run step new labels = some t) :
    (∀ pre post u, labels = pre ++ post → run step new pre = some u → u.Clean) ↔
      Along step Leaves new labels := by
  refine forall_reached_iff_along
    (fun (s : Tracked A R) (h : s.Clean ∧ s.handler.Coherent s.ids) => h.1)
    (fun s a s' h hstep => ?_) ⟨?_, RpcHandler.Coherent.new⟩ hrun
  · have hnext := coherent_step h.2 hstep
    exact ⟨clean_step_iff h.1 h.2 hstep, fun hclean => ⟨hclean, hnext⟩⟩
  · intro k hover i hi
    cases hi

/-- A condition that can be computed: no call is over when another one registers, none fails to
connect and none is dropped. -/
def quiet (s : Tracked A R) : TrackedLabel A R → Bool
  | .drop _ => false
  | .rpc (.advance k ok) =>
      match s.handler.pcAt k with
      | some (.allocated _) =>
          s.dropped.isEmpty && (List.range s.handler.calls.length).all s.running
      | some (.registered _) => ok
      | some (.waiting id) => (s.handler.pending id).isNone
      | _ => true
  | .rpc _ => true

/-- A quiet step finds what it must find. -/
theorem leaves_of_quiet {a : TrackedLabel A R} (h : s.quiet a = true) : s.Leaves a := by
  cases a with
  | drop k => cases h
  | rpc a =>
    cases a with
    | advance k ok =>
      simp only [quiet] at h
      simp only [Leaves]
      split
      · rename_i id hpc
        simp only [hpc, Bool.and_eq_true, List.isEmpty_iff, List.all_eq_true, List.mem_range] at h
        rintro j (hj | ⟨result, hresult⟩)
        · rw [h.1] at hj
          cases hj
        · obtain ⟨c, hc, -⟩ := Option.map_eq_some_iff.mp hresult
          have hrunning := h.2 j (List.getElem?_eq_some_iff.mp hc).1
          simp only [running, hresult] at hrunning
          cases hrunning
      · rename_i id hpc
        simp only [hpc] at h
        simp [h]
      · rename_i id hpc
        simp only [hpc, Option.isNone_iff_eq_none] at h
        simp [h]
      · trivial
    | call _ | packet _ _ _ | timeout _ | dispatch _ => trivial

/-- Three calls are made; one is answered, one times out and one fails to send. -/
def threeCalls : List (TrackedLabel Nat Bool) :=
  [.rpc (.call 1), .rpc (.call 2), .rpc (.call 3), .rpc (.advance 0 true), .rpc (.advance 1 true),
    .rpc (.advance 2 true), .rpc (.advance 0 true), .rpc (.advance 1 true), .rpc (.advance 2 true),
    .rpc (.advance 0 true), .rpc (.advance 1 true), .rpc (.advance 2 true), .rpc (.advance 0 true),
    .rpc (.advance 1 true), .rpc (.advance 2 false), .rpc (.packet 1 0 true), .rpc (.dispatch 0),
    .rpc (.timeout 1), .rpc (.dispatch 0), .rpc (.advance 0 true), .rpc (.advance 1 true),
    .rpc (.advance 2 true)]

/-- Three calls are over, and nothing of them is left. -/
theorem clean_threeCalls :
    ∃ t, run step new threeCalls = some t ∧ t.Over 0 ∧ t.Over 1 ∧ t.Over 2 ∧ t.Clean := by
  refine ⟨_, rfl, Or.inr ⟨_, rfl⟩, Or.inr ⟨_, rfl⟩, Or.inr ⟨_, rfl⟩, ?_⟩
  have hquiet : Along step (fun s a => s.quiet a = true) new threeCalls := by decide
  exact (clean_iff threeCalls rfl).mpr (hquiet.imp fun _ _ => leaves_of_quiet) threeCalls [] _
    (List.append_nil _).symm rfl

/-- A call whose connection fails, and a call that is dropped while it waits. -/
theorem entry_left_behind :
    (∃ t, run step new ([.rpc (.call 1), .rpc (.advance 0 true), .rpc (.advance 0 true),
        .rpc (.advance 0 false)] : List (TrackedLabel Nat Bool)) = some t ∧ ¬ t.Clean) ∧
      ∃ t, run step new ([.rpc (.call 1), .rpc (.advance 0 true), .rpc (.advance 0 true),
        .rpc (.advance 0 true), .rpc (.advance 0 true), .drop 0] :
          List (TrackedLabel Nat Bool)) = some t ∧ ¬ t.Clean := by
  constructor
  · exact ⟨_, rfl, fun h => Option.some_ne_none 0 (h 0 (Or.inr ⟨_, rfl⟩) 0 rfl)⟩
  · exact ⟨_, rfl, fun h => Option.some_ne_none 0 (h 0 (Or.inl List.mem_cons_self) 0 rfl)⟩

end Tracked

end Bqti.Dht
