import Mathlib.Logic.Function.Basic
import Bqti.Core.Pool
import Bqti.Core.Run

/-!
# Remote procedure calls of the DHT

Every outgoing request registers a one-shot channel under a fresh identifier in one table
shared by all peers. An incoming response removes the entry of its identifier and fills the
channel; the address it came from is not looked at. The model keeps that address beside
each response, so that the origin of what a call returns can be stated.
-/

namespace Bqti.Dht

open Bqti.Core

/-- The failures of a call. -/
inductive RpcError
  | timeout
  | channelClosed
  | transport
  deriving DecidableEq, Repr

/-- A response with the address of the connection it came in on. -/
structure Received (A R : Type*) where
  response : R
  source : A
  deriving DecidableEq, Repr

/-- The one-shot channel of a call. -/
inductive Slot (A R : Type*)
  | empty
  | full (received : Received A R)
  | closed
  deriving DecidableEq, Repr

/-- Where a call of `handle_request` stands. -/
inductive CallPc (A R : Type*)
  | start
  | allocated (id : Nat)
  | registered (id : Nat)
  | connected (id : Nat)
  | waiting (id : Nat)
  | failed (id : Nat) (error : RpcError)
  | returned (result : Except RpcError (Received A R))

/-- A call with the address of the peer it asks. -/
structure Call (A R : Type*) where
  peer : A
  slot : Slot A R
  pc : CallPc A R

/-- Where the task of an incoming response stands: it has removed the channel of a call, or
is finished. -/
inductive DispatchPc
  | start
  | removed (call : Nat)
  | finished
  deriving DecidableEq, Repr

/-- The task of an incoming response packet. -/
structure DispatchTask (A R : Type*) where
  source : A
  id : Nat
  response : R
  pc : DispatchPc

/-- The handler with its calls and the tasks of incoming responses. -/
structure RpcHandler (A R : Type*) where
  nextId : Nat
  pending : Nat → Option Nat
  calls : List (Call A R)
  dispatches : List (DispatchTask A R)

/-- A step of the handler and its environment. -/
inductive RpcLabel (A R : Type*)
  | call (peer : A)
  | packet (source : A) (id : Nat) (response : R)
  | advance (k : Nat) (ok : Bool)
  | timeout (k : Nat)
  | dispatch (j : Nat)

namespace RpcHandler

variable {A R : Type*}

/-- No calls and an empty table. -/
def new : RpcHandler A R := ⟨0, fun _ => none, [], []⟩

/-- Move a call. -/
def setCall (s : RpcHandler A R) (k : Nat) (c : Call A R) (pc : CallPc A R) : RpcHandler A R :=
  { s with calls := s.calls.set k { c with pc := pc } }

/-- Drop the sender of a call: an empty channel is closed. -/
def dropSender (s : RpcHandler A R) (sender : Option Nat) : RpcHandler A R :=
  match sender with
  | none => s
  | some k => { s with calls := s.calls.modify k fun c =>
      match c.slot with
      | .empty => { c with slot := .closed }
      | _ => c }

/-- The receiver of a call lives until the call times out or returns. -/
def receiverAlive (c : Call A R) : Bool :=
  match c.pc with
  | .failed _ .timeout | .returned _ => false
  | _ => true

/-- Fill the channel of a call, if its receiver still lives. -/
def sendResponse (s : RpcHandler A R) (k : Nat) (received : Received A R) : RpcHandler A R :=
  { s with calls := s.calls.modify k fun c =>
      if receiverAlive c then { c with slot := .full received } else c }

/-- One step of `handle_request`. A failed connection returns at once and leaves the entry in
the table; a failed send and a timeout remove whatever the table has under the identifier. -/
def stepCall (s : RpcHandler A R) (k : Nat) (c : Call A R) (ok : Bool) : Option (RpcHandler A R) :=
  match c.pc with
  | .start =>
      some ({ s with nextId := (s.nextId + 1) % 2 ^ 64 }.setCall k c (.allocated s.nextId))
  | .allocated id =>
      some (({ s with pending := Function.update s.pending id (some k) }.setCall k c
        (.registered id)).dropSender (s.pending id))
  | .registered id =>
      if ok then some (s.setCall k c (.connected id))
      else some (s.setCall k c (.returned (.error .transport)))
  | .connected id =>
      if ok then some (s.setCall k c (.waiting id))
      else some (s.setCall k c (.failed id .transport))
  | .waiting _ =>
      match c.slot with
      | .empty => none
      | .full received => some (s.setCall k c (.returned (.ok received)))
      | .closed => some (s.setCall k c (.returned (.error .channelClosed)))
  | .failed id error =>
      some (({ s with pending := Function.update s.pending id none }.setCall k c
        (.returned (.error error))).dropSender (s.pending id))
  | .returned _ => none

/-- One step of the task of an incoming response. -/
def stepDispatch (s : RpcHandler A R) (j : Nat) (d : DispatchTask A R) :
    Option (RpcHandler A R) :=
  match d.pc with
  | .start =>
      match s.pending d.id with
      | none => some { s with dispatches := s.dispatches.set j { d with pc := .finished } }
      | some k => some { s with
          pending := Function.update s.pending d.id none
          dispatches := s.dispatches.set j { d with pc := .removed k } }
  | .removed k =>
      some { s.sendResponse k ⟨d.response, d.source⟩ with
        dispatches := s.dispatches.set j { d with pc := .finished } }
  | .finished => none

/-- One step. Any peer may send any response at any time. -/
def step (s : RpcHandler A R) : RpcLabel A R → Option (RpcHandler A R)
  | .call peer => some { s with calls := s.calls ++ [⟨peer, .empty, .start⟩] }
  | .packet source id response =>
      some { s with dispatches := s.dispatches ++ [⟨source, id, response, .start⟩] }
  | .advance k ok => (s.calls[k]?).bind fun c => stepCall s k c ok
  | .timeout k => (s.calls[k]?).bind fun c =>
      match c.pc with
      | .waiting id => some (s.setCall k c (.failed id .timeout))
      | _ => none
  | .dispatch j => (s.dispatches[j]?).bind (stepDispatch s j)

/-! ## Origin of responses -/

/-- The peers of all calls. -/
def peers (s : RpcHandler A R) : List A := s.calls.map Call.peer

/-- A response that removes a channel comes from the peer that the call asked. -/
def FromPeer (s : RpcHandler A R) : RpcLabel A R → Prop
  | .dispatch j => ∀ d ∈ s.dispatches[j]?, d.pc = .start →
      ∀ k ∈ s.pending d.id, s.peers[k]? = some d.source
  | _ => True

instance [DecidableEq A] (s : RpcHandler A R) : (a : RpcLabel A R) → Decidable (FromPeer s a)
  | .dispatch j => inferInstanceAs (Decidable (∀ d ∈ s.dispatches[j]?, d.pc = .start →
      ∀ k ∈ s.pending d.id, s.peers[k]? = some d.source))
  | .call _ | .packet _ _ _ | .advance _ _ | .timeout _ => .isTrue trivial

/-- Whatever a call holds or returned came from its peer. -/
def Call.Genuine (c : Call A R) : Prop :=
  (∀ v, c.slot = .full v → v.source = c.peer) ∧
    ∀ v, c.pc = .returned (.ok v) → v.source = c.peer

/-- Every removed channel and every filled channel belongs to the peer of the response. -/
structure Genuine (s : RpcHandler A R) : Prop where
  calls : ∀ c ∈ s.calls, Call.Genuine c
  dispatches : ∀ d ∈ s.dispatches, ∀ k, d.pc = .removed k → s.peers[k]? = some d.source

variable {s s' : RpcHandler A R}

/-- Moving a call keeps the peers. -/
theorem peers_setCall {k : Nat} {c : Call A R} (hc : s.calls[k]? = some c) (pc : CallPc A R) :
    (s.setCall k c pc).peers = s.peers :=
  map_set_eq Call.peer hc rfl

/-- Dropping a sender keeps the peers. -/
theorem peers_dropSender (s : RpcHandler A R) (sender : Option Nat) :
    (s.dropSender sender).peers = s.peers := by
  cases sender with
  | none => rfl
  | some k =>
    apply map_modify_eq
    intro c
    cases c.slot <;> rfl

/-- Sending a response keeps the peers. -/
theorem peers_sendResponse (s : RpcHandler A R) (k : Nat) (v : Received A R) :
    (s.sendResponse k v).peers = s.peers := by
  apply map_modify_eq
  intro c
  split <;> rfl

/-- Moving a call keeps the handler genuine when its new point is. -/
theorem Genuine.setCall {k : Nat} {c : Call A R} (hs : Genuine s) (hc : s.calls[k]? = some c)
    {pc : CallPc A R} (hpc : ∀ v, pc = .returned (.ok v) → v.source = c.peer) :
    Genuine (s.setCall k c pc) := by
  refine ⟨fun u hu => ?_, fun d hd j hj => ?_⟩
  · rcases List.mem_or_eq_of_mem_set hu with hu | rfl
    · exact hs.calls u hu
    · exact ⟨(hs.calls c (List.mem_of_getElem? hc)).1, hpc⟩
  · rw [peers_setCall hc]
    exact hs.dispatches d hd j hj

/-- Dropping a sender keeps the handler genuine. -/
theorem Genuine.dropSender (hs : Genuine s) (sender : Option Nat) :
    Genuine (s.dropSender sender) := by
  refine ⟨fun u hu => ?_, fun d hd j hj => ?_⟩
  · cases sender with
    | none => exact hs.calls u hu
    | some k =>
      rcases mem_modify hu with hu | ⟨c, hc, rfl⟩
      · exact hs.calls u hu
      · have hg := hs.calls c (List.mem_of_getElem? hc)
        cases c.slot with
        | empty => exact ⟨fun v hv => absurd hv (by simp), hg.2⟩
        | full v => exact hg
        | closed => exact hg
  · rw [peers_dropSender]
    have hd' : d ∈ s.dispatches := by
      cases sender <;> exact hd
    exact hs.dispatches d hd' j hj

/-- Filling the channel of a call from its own peer keeps the handler genuine. -/
theorem Genuine.sendResponse (hs : Genuine s) {k : Nat} {v : Received A R}
    (hv : s.peers[k]? = some v.source) : Genuine (s.sendResponse k v) := by
  refine ⟨fun u hu => ?_, fun d hd j hj => ?_⟩
  · rcases mem_modify hu with hu | ⟨c, hc, rfl⟩
    · exact hs.calls u hu
    · have hg := hs.calls c (List.mem_of_getElem? hc)
      split
      · refine ⟨fun w hw => ?_, hg.2⟩
        rw [peers, List.getElem?_map, hc] at hv
        have he : v = w := by simpa using hw
        rw [← he]
        exact (Option.some.inj hv).symm
      · exact hg
  · rw [peers_sendResponse]
    exact hs.dispatches d hd j hj

/-- One step of a call keeps the handler genuine. -/
theorem Genuine.stepCall {k : Nat} {c : Call A R} {ok : Bool} (hs : Genuine s)
    (hc : s.calls[k]? = some c) (h : stepCall s k c ok = some s') : Genuine s' := by
  have hmove : ∀ (u : RpcHandler A R) pc, Genuine u → u.calls[k]? = some c →
      (∀ v, pc = .returned (.ok v) → v.source = c.peer) → Genuine (u.setCall k c pc) :=
    fun u pc hu huc hpc => hu.setCall huc hpc
  cases hpc : c.pc with
  | start =>
    simp only [RpcHandler.stepCall, hpc, Option.some.injEq] at h
    rw [← h]
    exact hmove _ _ ⟨hs.calls, hs.dispatches⟩ hc (by simp)
  | allocated id =>
    simp only [RpcHandler.stepCall, hpc, Option.some.injEq] at h
    rw [← h]
    apply Genuine.dropSender
    exact hmove _ _ ⟨hs.calls, hs.dispatches⟩ hc (by simp)
  | registered id =>
    simp only [RpcHandler.stepCall, hpc] at h
    split at h <;> rw [← Option.some.inj h] <;> exact hmove _ _ hs hc (by simp)
  | connected id =>
    simp only [RpcHandler.stepCall, hpc] at h
    split at h <;> rw [← Option.some.inj h] <;> exact hmove _ _ hs hc (by simp)
  | waiting id =>
    simp only [RpcHandler.stepCall, hpc] at h
    split at h
    · exact absurd h (by simp)
    · rename_i v hslot
      rw [← Option.some.inj h]
      refine hmove _ _ hs hc fun w hw => ?_
      have he : v = w := by simpa using hw
      exact he ▸ (hs.calls c (List.mem_of_getElem? hc)).1 v hslot
    · rw [← Option.some.inj h]
      exact hmove _ _ hs hc (by simp)
  | failed id error =>
    simp only [RpcHandler.stepCall, hpc, Option.some.injEq] at h
    rw [← h]
    apply Genuine.dropSender
    exact hmove _ _ ⟨hs.calls, hs.dispatches⟩ hc (by simp)
  | returned result =>
    simp only [RpcHandler.stepCall, hpc] at h
    exact absurd h (by simp)

/-- Moving the task of a response keeps the handler genuine when its new point is. -/
theorem Genuine.setDispatch {j : Nat} {d : DispatchTask A R} (hs : Genuine s) {p : DispatchPc}
    (hp : ∀ k, p = .removed k → s.peers[k]? = some d.source) :
    Genuine { s with dispatches := s.dispatches.set j { d with pc := p } } := by
  refine ⟨hs.calls, fun e he k hk => ?_⟩
  rcases List.mem_or_eq_of_mem_set he with he | rfl
  · exact hs.dispatches e he k hk
  · exact hp k hk

/-- A step from the asked peer keeps the handler genuine. -/
theorem Genuine.step {a : RpcLabel A R} (hs : Genuine s) (hc : FromPeer s a)
    (h : s.step a = some s') : Genuine s' := by
  cases a with
  | call peer =>
    simp only [RpcHandler.step, Option.some.injEq] at h
    rw [← h]
    refine ⟨fun c hcall => ?_, fun d hd k hk => ?_⟩
    · rcases List.mem_append.mp hcall with hcall | hcall
      · exact hs.calls c hcall
      · rw [List.mem_singleton.mp hcall]
        exact ⟨by simp, by simp⟩
    · have hold := hs.dispatches d hd k hk
      rw [peers, List.map_append]
      exact (List.getElem?_append_left (List.getElem?_eq_some_iff.mp hold).1).trans hold
  | packet source id response =>
    simp only [RpcHandler.step, Option.some.injEq] at h
    rw [← h]
    refine ⟨hs.calls, fun d hd k hk => ?_⟩
    rcases List.mem_append.mp hd with hd | hd
    · exact hs.dispatches d hd k hk
    · rw [List.mem_singleton.mp hd] at hk
      exact absurd hk (by simp)
  | advance k ok =>
    simp only [RpcHandler.step, Option.bind_eq_some_iff] at h
    obtain ⟨c, hcall, h⟩ := h
    exact hs.stepCall hcall h
  | timeout k =>
    simp only [RpcHandler.step, Option.bind_eq_some_iff] at h
    obtain ⟨c, hcall, h⟩ := h
    split at h
    · rw [← Option.some.inj h]
      exact hs.setCall hcall (by simp)
    · exact absurd h (by simp)
  | dispatch j =>
    simp only [RpcHandler.step, Option.bind_eq_some_iff] at h
    obtain ⟨d, hd, h⟩ := h
    cases hpc : d.pc with
    | start =>
      simp only [stepDispatch, hpc] at h
      split at h
      · rw [← Option.some.inj h]
        exact hs.setDispatch (by simp)
      · rename_i k hk
        rw [← Option.some.inj h]
        have hg := hs.setDispatch (j := j) (d := d) (p := .removed k) fun k' hk' => by
          rw [← (DispatchPc.removed.inj hk')]
          exact hc d hd hpc k hk
        exact ⟨hg.calls, hg.dispatches⟩
    | removed k =>
      simp only [stepDispatch, hpc, Option.some.injEq] at h
      rw [← h]
      have hsend := hs.sendResponse (v := ⟨d.response, d.source⟩)
        (hs.dispatches d (List.mem_of_getElem? hd) k hpc)
      exact hsend.setDispatch (by simp)
    | finished =>
      simp only [stepDispatch, hpc] at h
      exact absurd h (by simp)

/-- In every run in which a response that removes a channel comes from the peer that was
asked, whatever a call returns was received from the address of its peer. -/
theorem response_origin {A R : Type*} (labels : List (RpcLabel A R)) (s : RpcHandler A R)
    (hsteps : Along step FromPeer new labels) (hrun : run step new labels = some s)
    (c : Call A R) (hc : c ∈ s.calls) (v : Received A R) (hv : c.pc = .returned (.ok v)) :
    v.source = c.peer := by
  have hnew : Genuine (new : RpcHandler A R) :=
    ⟨fun c hc => absurd hc List.not_mem_nil, fun d hd => absurd hd List.not_mem_nil⟩
  have hgenuine : Genuine s :=
    run_invariant_along (fun _ _ _ hi hc h => hi.step hc h) hnew hsteps hrun
  exact (hgenuine.calls c hc).2 v hv

/-- A call to the peer at address 1 that is answered from some address. -/
def answeredBy (source : Nat) : List (RpcLabel Nat Bool) :=
  [.call 1, .advance 0 true, .advance 0 true, .advance 0 true, .advance 0 true,
    .packet source 0 true, .dispatch 0, .dispatch 0, .advance 0 true]

/-- A call that is answered by its peer returns the response of its peer. -/
theorem response_origin_answered :
    ∃ s c v, run step new (answeredBy 1) = some s ∧ c ∈ s.calls ∧ c.pc = .returned (.ok v) ∧
      v.source = c.peer := by
  refine ⟨_, _, ⟨true, 1⟩, rfl, List.mem_singleton_self _, rfl, ?_⟩
  exact response_origin (answeredBy 1) _ (by decide) rfl _ (List.mem_singleton_self _) _ rfl

/-- The identifiers are sequential, so a peer at address 2 that was never asked answers the
first call to the peer at address 1, and the call returns its response. -/
theorem response_from_stranger :
    ∃ s c v, run step new (answeredBy 2) = some s ∧ c ∈ s.calls ∧ c.pc = .returned (.ok v) ∧
      c.peer = 1 ∧ v.source = 2 := by
  exact ⟨_, _, ⟨true, 2⟩, rfl, List.mem_singleton_self _, rfl, rfl, rfl⟩

end RpcHandler

end Bqti.Dht
