import Bqti.Core.Run
import Bqti.Ipc.State

/-!
# Sending events to a client

`ClientCtx::emit` and `IpcServer::send_event` change the table under its lock and send the
event after they have released it. A client subscribes, is sent a snapshot under the lock and
then receives what was sent since it subscribed. All these are steps of one system, so that
events can be sent in another order than they were taken over, and an event can be part of
the snapshot and be received as well.
-/

namespace Bqti.Ipc.Stream

open Bqti.Core

/-- How many events a client may have outstanding. -/
def eventStreamBufferSize : Nat := 64

/-- A client of `handle_event_stream`. It starts from the torrents of the snapshot, and it is
dropped when it lags behind. -/
inductive Client
  | absent
  | subscribed (outstanding : List Event)
  | streaming (view : IpcState) (outstanding : List Event)
  | lagged

/-- The table, the calls that wait for its lock, the events that were taken over and are not
sent, oldest first, and a client. -/
structure Server where
  state : IpcState
  waiting : List Event
  unsent : List Event
  client : Client

/-- The steps of the calls and of the client. -/
inductive Label
  | call (event : Event)
  | apply (i : Nat)
  | send (i : Nat)
  | subscribe
  | snapshot
  | receive

/-- The server as it is started. -/
def Server.start : Server := ⟨.default, [], [], .absent⟩

/-- An event is put into the buffer of a client, which lags when there is no room. -/
def Client.push (e : Event) : Client → Client
  | .absent => .absent
  | .subscribed outstanding =>
      if outstanding.length < eventStreamBufferSize then .subscribed (outstanding ++ [e])
      else .lagged
  | .streaming view outstanding =>
      if outstanding.length < eventStreamBufferSize then .streaming view (outstanding ++ [e])
      else .lagged
  | .lagged => .lagged

/-- The event that a call sends is the one that the table gives back. -/
def applyEvent (s : Server) (i : Nat) : Option Server :=
  match s.waiting[i]? with
  | none => none
  | some e =>
      some { s with
        state := (s.state.apply e).1
        waiting := s.waiting.eraseIdx i
        unsent := s.unsent ++ (s.state.apply e).2.toList }

/-- The end of a call. -/
def sendEvent (s : Server) (i : Nat) : Option Server :=
  match s.unsent[i]? with
  | none => none
  | some e => some { s with unsent := s.unsent.eraseIdx i, client := s.client.push e }

/-- One step. -/
def step (s : Server) : Label → Option Server
  | .call e => some { s with waiting := s.waiting ++ [e] }
  | .apply i => applyEvent s i
  | .send i => sendEvent s i
  | .subscribe =>
      match s.client with
      | .absent => some { s with client := .subscribed [] }
      | .subscribed _ | .streaming _ _ | .lagged => none
  | .snapshot =>
      match s.client with
      | .subscribed outstanding => some { s with client := .streaming s.state outstanding }
      | .absent | .streaming _ _ | .lagged => none
  | .receive =>
      match s.client with
      | .streaming view (e :: outstanding) =>
          some { s with client := .streaming (view.apply e).1 outstanding }
      | .streaming _ [] | .absent | .subscribed _ | .lagged => none

/-- No call is in progress. -/
def Server.Quiet (s : Server) : Prop := s.waiting = [] ∧ s.unsent = []

/-- A client that has received everything has the table of the server. -/
def Server.Converged (s : Server) : Prop :=
  ∀ view outstanding, s.client = .streaming view outstanding →
    view.applyAll outstanding = s.state

/-- An event is not sent before an older one that touches the same torrent. -/
def InOrder (s : Server) : Label → Prop
  | .send i => ∀ e ∈ s.unsent[i]?, ∀ older ∈ s.unsent.take i,
      e.touches = none ∨ older.touches ≠ e.touches
  | .call _ | .apply _ | .subscribe | .snapshot | .receive => True

/-- What a client still has to take over makes its entries those of the table; a client that
has only subscribed has them taken over from some earlier entry. -/
def Client.Follows (k : String) (unsent : List Event) (entry : Option Torrent) : Client → Prop
  | .absent => ∃ earlier, effects k unsent earlier = entry
  | .subscribed outstanding => ∃ earlier, effects k (outstanding ++ unsent) earlier = entry
  | .streaming view outstanding => effects k (outstanding ++ unsent) (view.get k) = entry
  | .lagged => True

/-- What holds of every entry between the steps. -/
def Following (s : Server) : Prop := ∀ k, s.client.Follows k s.unsent (s.state.get k)

/-- Taking over one more event keeps a client behind the table. -/
theorem Client.Follows.concat {k : String} {unsent : List Event} {entry : Option Torrent}
    {client : Client} (h : client.Follows k unsent entry) (e : Event) :
    client.Follows k (unsent ++ [e]) (if e.touches = some k then e.effect entry else entry) := by
  cases client with
  | absent =>
    obtain ⟨earlier, rfl⟩ := h
    exact ⟨earlier, by rw [effects_append, effects_singleton]⟩
  | subscribed outstanding =>
    obtain ⟨earlier, rfl⟩ := h
    exact ⟨earlier, by rw [← List.append_assoc, effects_append, effects_singleton]⟩
  | streaming view outstanding =>
    rw [Follows] at h
    rw [Follows, ← List.append_assoc, effects_append, effects_singleton, h]
  | lagged => trivial

/-- An event can be taken over before older ones that do not touch its entry. -/
theorem effects_eraseIdx {k : String} {unsent : List Event} {i : Nat} {e : Event}
    (hi : unsent[i]? = some e)
    (horder : ∀ older ∈ unsent.take i, e.touches = none ∨ older.touches ≠ e.touches)
    (entry : Option Torrent) :
    effects k (unsent.eraseIdx i) (effects k [e] entry) = effects k unsent entry := by
  have hsplit : unsent = unsent.take i ++ e :: unsent.drop (i + 1) := by
    obtain ⟨hlt, rfl⟩ := List.getElem?_eq_some_iff.mp hi
    rw [← List.drop_eq_getElem_cons hlt, List.take_append_drop]
  rw [List.eraseIdx_eq_take_drop_succ]
  conv_rhs => rw [hsplit, ← List.singleton_append]
  simp only [effects_append]
  by_cases htouch : e.touches = some k
  · have hother : ∀ older ∈ unsent.take i, older.touches ≠ some k := fun older holder => by
      rcases horder older holder with hnone | hne
      · exact absurd (hnone.symm.trans htouch) (by simp)
      · exact fun h => hne (h.trans htouch.symm)
    rw [effects_of_not_touches hother, effects_of_not_touches hother]
  · have hnone : ∀ entry, effects k [e] entry = entry := fun entry => by
      rw [effects_singleton, if_neg htouch]
    rw [hnone, hnone]

/-- Sending an event in order keeps a client behind the table. -/
theorem Client.Follows.push {k : String} {unsent : List Event} {entry : Option Torrent}
    {client : Client} (h : client.Follows k unsent entry) {i : Nat} {e : Event}
    (hi : unsent[i]? = some e)
    (horder : ∀ older ∈ unsent.take i, e.touches = none ∨ older.touches ≠ e.touches) :
    (client.push e).Follows k (unsent.eraseIdx i) entry := by
  cases client with
  | absent =>
    obtain ⟨earlier, rfl⟩ := h
    exact ⟨effects k [e] earlier, effects_eraseIdx hi horder earlier⟩
  | subscribed outstanding =>
    obtain ⟨earlier, rfl⟩ := h
    rw [Client.push]
    split
    · refine ⟨earlier, ?_⟩
      simp only [effects_append]
      exact effects_eraseIdx hi horder _
    · trivial
  | streaming view outstanding =>
    rw [Follows] at h
    rw [Client.push]
    split
    · rw [Follows, ← h]
      simp only [effects_append]
      exact effects_eraseIdx hi horder _
    · trivial
  | lagged => trivial

/-- Every step in order keeps the client behind the table. -/
theorem following_step {s s' : Server} {a : Label} (h : Following s) (horder : InOrder s a)
    (hstep : step s a = some s') : Following s' := by
  intro k
  cases a with
  | call e =>
    cases hstep
    exact h k
  | apply i =>
    simp only [step, applyEvent] at hstep
    split at hstep
    · contradiction
    · rename_i e he
      obtain rfl := Option.some.inj hstep
      dsimp only
      rw [IpcState.apply_snd, Option.toList_some, IpcState.get_apply]
      exact (h k).concat e
  | send i =>
    simp only [step, sendEvent] at hstep
    split at hstep
    · contradiction
    · rename_i e he
      obtain rfl := Option.some.inj hstep
      exact (h k).push he (horder e he)
  | subscribe =>
    simp only [step] at hstep
    split at hstep
    · rename_i hclient
      obtain rfl := Option.some.inj hstep
      have hk := h k
      rw [hclient] at hk
      exact hk
    all_goals contradiction
  | snapshot =>
    simp only [step] at hstep
    split at hstep
    · rename_i outstanding hclient
      obtain rfl := Option.some.inj hstep
      have hk := h k
      rw [hclient] at hk
      obtain ⟨earlier, hearlier⟩ := hk
      -- What was sent since the subscription is part of the snapshot already.
      show effects k (outstanding ++ s.unsent) (s.state.get k) = s.state.get k
      rw [← hearlier]
      exact effects_idem k _ earlier
    all_goals contradiction
  | receive =>
    simp only [step] at hstep
    split at hstep
    · rename_i view e outstanding hclient
      obtain rfl := Option.some.inj hstep
      have hk := h k
      rw [hclient] at hk
      show effects k (outstanding ++ s.unsent) ((view.apply e).1.get k) = s.state.get k
      rw [IpcState.get_apply, ← effects_singleton, ← effects_append]
      exact hk
    all_goals contradiction

/-- A client starts following. -/
theorem following_start : Following .start := fun k => ⟨none, (IpcState.get_default k).symm⟩

/-- In every run in which no event is sent before an older one of the same torrent: whenever no
call is in progress, a client that starts from its snapshot and takes over what it receives
ends with the table of the server. -/
theorem converged_of_inOrder {as : List Label} {s : Server} (hrun : run step .start as = some s)
    (horder : Along step InOrder .start as) (hquiet : s.Quiet) : s.Converged := by
  have hfollowing : Following s :=
    run_invariant_along (fun _ _ _ => following_step) following_start horder hrun
  intro view outstanding hclient
  ext1 k
  have hk := hfollowing k
  rw [hclient, hquiet.2] at hk
  rw [IpcState.get_applyAll, ← hk, List.append_nil]

/-- Two calls that change one torrent, while a client has its snapshot already. -/
def overlapping (sends : List Label) : List Label :=
  [.subscribe, .snapshot, .call (.torrentAdded "a" "b" .pending), .call (.torrentRemoved "a"),
    .apply 0, .apply 0] ++ sends

/-- The end of a run can be tested. -/
def Client.view : Client → Option IpcState
  | .streaming view outstanding => some (view.applyAll outstanding)
  | .absent | .subscribed _ | .lagged => none

/-- A client with a view is streaming. -/
theorem Client.view_eq_some {client : Client} {t : IpcState} (h : client.view = some t) :
    ∃ view outstanding, client = .streaming view outstanding ∧ view.applyAll outstanding = t := by
  cases client with
  | streaming view outstanding => exact ⟨view, outstanding, rfl, Option.some.inj h⟩
  | absent => cases h
  | subscribed outstanding => cases h
  | lagged => cases h

instance InOrder.decidable (s : Server) : (a : Label) → Decidable (InOrder s a)
  | .send i => inferInstanceAs (Decidable (∀ e ∈ s.unsent[i]?, ∀ older ∈ s.unsent.take i,
      e.touches = none ∨ older.touches ≠ e.touches))
  | .call _ | .apply _ | .subscribe | .snapshot | .receive => .isTrue trivial

/-- The older event is sent first, and the client follows. -/
theorem converged_overlapping : ∃ s, run step .start (overlapping [.send 0, .send 0]) = some s ∧
    s.Quiet ∧ s.Converged := by
  have hrun : ((run step .start (overlapping [.send 0, .send 0])).any fun s =>
      decide (s.waiting = [] ∧ s.unsent = [])) = true := by
    decide +kernel
  obtain ⟨s, hs, hquiet⟩ := exists_of_any hrun
  exact ⟨s, hs, hquiet, converged_of_inOrder hs (by decide +kernel) hquiet⟩

/-- The younger event is sent first, and the client keeps a torrent that was removed. -/
theorem diverged_overlapping : ∃ s, run step .start (overlapping [.send 1, .send 0]) = some s ∧
    s.Quiet ∧ ¬ s.Converged := by
  have hrun : ((run step .start (overlapping [.send 1, .send 0])).any fun s =>
      decide ((s.waiting = [] ∧ s.unsent = []) ∧ ∃ t ∈ s.client.view, t ≠ s.state)) =
        true := by
    decide +kernel
  obtain ⟨s, hs, hquiet, t, ht, hne⟩ := exists_of_any hrun
  refine ⟨s, hs, hquiet, fun hconverged => ?_⟩
  obtain ⟨view, outstanding, hclient, rfl⟩ := Client.view_eq_some ht
  exact hne (hconverged view outstanding hclient)

end Bqti.Ipc.Stream
