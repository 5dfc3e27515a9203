import Bqti.Core.Pool
import Bqti.Core.Run
import Bqti.Network.Dial
import Bqti.Pex.Router

/-!
# Two nodes that tell each other

Every message that a node handles is answered with the swarm, and the answer is a message that the
other node handles. Since the sender is announced first there is always something to answer, so
that the exchange does not come to an end unless there is nothing on its way or one of the nodes
cannot send.
-/

namespace Bqti.Pex

open Bqti.Core Bqti.Dht Bqti.Network

/-- Two nodes, and the messages on their way with the node each goes to. -/
structure Exchange where
  routers : Side → PexRouter
  inFlight : List (Side × PexMessage)

/-- A message arrives, and the order in which its handler walks through the swarm. -/
structure Delivery where
  index : Nat
  listed : List SocketAddr

namespace Exchange

/-- What a handler sends goes to the other side. -/
def answers (side : Side) (answer : Except PexError (Option PexMessage)) :
    List (Side × PexMessage) :=
  match answer with
  | .ok (some reply) => [(side.other, reply)]
  | _ => []

/-- A message was handled: it is no longer on its way, and its answer is. -/
def handled (x : Exchange) (index : Nat) (side : Side)
    (result : PexRouter × Except PexError (Option PexMessage)) : Exchange :=
  ⟨Function.update x.routers side result.1, x.inFlight.eraseIdx index ++ answers side result.2⟩

/-- One delivery. A side that is linked can send to the other. -/
def step (addr : Side → SocketAddr) (linked : Side → Bool) (x : Exchange) (d : Delivery) :
    Option Exchange :=
  (x.inFlight[d.index]?).bind fun (side, m) =>
    if Lists d.listed
        (((x.routers side).announce m.infoHash (addr side.other)).swarm m.infoHash) then
      some (x.handled d.index side
        ((x.routers side).handleIncoming m (addr side.other) d.listed (linked side)))
    else none

/-- Every run of deliveries ends. -/
def Quiesces (addr : Side → SocketAddr) (linked : Side → Bool) (x : Exchange) : Prop :=
  ¬ ∃ states, Endless (step addr linked) x states

variable {addr : Side → SocketAddr} {linked : Side → Bool} {x x' : Exchange} {d : Delivery}

@[simp] theorem handled_routers_self (x : Exchange) (index : Nat) (side : Side)
    (result : PexRouter × Except PexError (Option PexMessage)) :
    (x.handled index side result).routers side = result.1 := Function.update_self ..

/-- Handling a message changes the router of one side only. -/
theorem handled_routers_of_ne {side side' : Side} (hne : side ≠ side') (index : Nat)
    (result : PexRouter × Except PexError (Option PexMessage)) :
    (x.handled index side' result).routers side = x.routers side := Function.update_of_ne hne ..

/-- The handler never fails, and answers whenever it can send. -/
theorem answers_handleIncoming (r : PexRouter) (m : PexMessage) (socket : SocketAddr)
    (listed : List SocketAddr) (canSend : Bool) (side : Side) :
    answers side (r.handleIncoming m socket listed canSend).2 =
      if canSend then [(side.other, ⟨m.infoHash, listed.take maxPexDelta, []⟩)] else [] := by
  have hmembers := PexRouter.announce_swarm_ne_empty r m.infoHash socket
  rw [PexRouter.handleIncoming, PexRouter.message_eq_some hmembers]
  cases canSend with
  | true => rfl
  | false => rfl

/-- What a delivery does to the messages on their way. -/
theorem step_inFlight (hstep : step addr linked x d = some x') :
    ∃ side m, x.inFlight[d.index]? = some (side, m) ∧
      x'.inFlight = x.inFlight.eraseIdx d.index ++ if linked side then
        [(side.other, ⟨m.infoHash, d.listed.take maxPexDelta, []⟩)] else [] := by
  obtain ⟨⟨side, m⟩, hm, hs⟩ := Option.bind_eq_some_iff.mp hstep
  obtain ⟨-, he⟩ := Option.ite_none_right_eq_some.mp hs
  obtain rfl := Option.some.inj he
  refine ⟨side, m, hm, ?_⟩
  rw [handled, answers_handleIncoming]

/-- Every message on its way can be delivered. -/
theorem exists_step (addr : Side → SocketAddr) (linked : Side → Bool) {k : Nat} {side : Side}
    {m : PexMessage} (hk : x.inFlight[k]? = some (side, m)) :
    ∃ listed x', step addr linked x ⟨k, listed⟩ = some x' := by
  obtain ⟨listed, hlisted⟩ :=
    exists_lists (((x.routers side).announce m.infoHash (addr side.other)).swarm m.infoHash)
  refine ⟨listed, x.handled k side
    ((x.routers side).handleIncoming m (addr side.other) listed (linked side)), ?_⟩
  simp only [step, hk, Option.bind_some, if_pos hlisted]

/-- Deliveries leave no swarm too large. -/
theorem bounded_of_run {deliveries : List Delivery} (hx : ∀ side, (x.routers side).Bounded)
    (hrun : run (step addr linked) x deliveries = some x') (side : Side) :
    (x'.routers side).Bounded := by
  have hkeep : ∀ (x : Exchange) d x', (∀ side, (x.routers side).Bounded) →
      step addr linked x d = some x' → ∀ side, (x'.routers side).Bounded := by
    intro x d x' hx hstep side
    obtain ⟨⟨side', m⟩, -, hs⟩ := Option.bind_eq_some_iff.mp hstep
    obtain ⟨-, he⟩ := Option.ite_none_right_eq_some.mp hs
    obtain rfl := Option.some.inj he
    by_cases hside : side = side'
    · subst hside
      rw [handled_routers_self]
      exact (hx side).handleIncoming _ _ _ _
    · rw [handled_routers_of_ne hside]
      exact hx side
  exact run_invariant hkeep hx hrun side

/-! ## An exchange that goes on -/

/-- If both nodes can send, an exchange with a message on its way goes on. -/
theorem exists_step_ne_nil (hlinked : ∀ side, linked side = true) (hx : x.inFlight ≠ []) :
    ∃ d x', step addr linked x d = some x' ∧ x'.inFlight ≠ [] := by
  obtain ⟨⟨side, m⟩, rest, hcons⟩ := List.exists_cons_of_ne_nil hx
  have hfirst : x.inFlight[0]? = some (side, m) := by
    rw [hcons, List.getElem?_cons_zero]
  obtain ⟨listed, x', hstep⟩ := exists_step addr linked hfirst
  refine ⟨_, x', hstep, ?_⟩
  obtain ⟨side', m', -, hinFlight⟩ := step_inFlight hstep
  rw [hinFlight, if_pos (hlinked side')]
  exact List.append_ne_nil_of_right_ne_nil _ (List.cons_ne_nil _ _)

/-! ## An exchange that ends -/

/-- How many deliveries a message to a side can bring about, if one of the sides cannot send. -/
def cost (linked : Side → Bool) (side : Side) : Nat := if linked side then 2 else 1

/-- How many deliveries are left at most. -/
def remaining (linked : Side → Bool) (x : Exchange) : Nat :=
  (x.inFlight.map fun message => cost linked message.1).sum

/-- If one of the nodes cannot send, every delivery brings the end nearer. -/
theorem remaining_step_lt {mute : Side} (hmute : linked mute = false)
    (hstep : step addr linked x d = some x') : x'.remaining linked < x.remaining linked := by
  obtain ⟨side, m, hk, hinFlight⟩ := step_inFlight hstep
  have hsum := sum_map_eraseIdx (fun message => cost linked message.1) hk
  rw [remaining, hinFlight, List.map_append, List.sum_append, remaining]
  cases hlinked : linked side with
  | false =>
    simp only [cost, hlinked, Bool.false_eq_true, if_false, List.map_nil, List.sum_nil] at hsum ⊢
    omega
  | true =>
    have hother : side.other = mute := by
      rcases mute.eq_or_eq_other side with rfl | rfl
      · rw [hlinked] at hmute
        cases hmute
      · rfl
    simp only [cost, hlinked, hother, hmute, if_true, Bool.false_eq_true, if_false,
      List.map_singleton, List.sum_singleton] at hsum ⊢
    omega

/-- From any state of the swarms, every run of deliveries ends precisely when nothing is on its way
or one of the two nodes cannot send to the other. -/
theorem quiesces_iff (addr : Side → SocketAddr) (linked : Side → Bool) (x : Exchange) :
    x.Quiesces addr linked ↔ x.inFlight = [] ∨ ∃ side, linked side = false := by
  constructor
  · intro hquiesces
    by_contra hnot
    obtain ⟨hx, hlinked⟩ := not_or.mp hnot
    have hlinked' : ∀ side, linked side = true := by
      intro side
      exact Bool.of_not_eq_false fun hmute => hlinked ⟨side, hmute⟩
    exact hquiesces (exists_endless (fun _ hx => exists_step_ne_nil hlinked' hx) hx)
  · rintro (hx | ⟨mute, hmute⟩)
    · rintro ⟨states, hfirst, hnext⟩
      obtain ⟨d, hstep⟩ := hnext 0
      obtain ⟨side, m, hk, -⟩ := step_inFlight hstep
      rw [hfirst, hx] at hk
      cases hk
    · exact not_endless_of_measure (fun _ _ _ hstep => remaining_step_lt hmute hstep) x

end Exchange

/-- Two nodes without swarms, and one message on its way. -/
def sampleExchange : Exchange :=
  ⟨fun _ => .create, [(.a, ⟨⟨Vector.replicate 32 0, []⟩, [], []⟩)]⟩

/-- If both nodes can send, the exchange goes on without an end. -/
theorem endless_sampleExchange :
    ∃ states, Endless (Exchange.step sampleAddr fun _ => true) sampleExchange states :=
  exists_endless (P := fun x => x.inFlight ≠ [])
    (fun _ hx => Exchange.exists_step_ne_nil (fun _ => rfl) hx) (List.cons_ne_nil _ _)

end Bqti.Pex
