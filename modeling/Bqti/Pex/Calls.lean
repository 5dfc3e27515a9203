import Bqti.Core.Pool
import Bqti.Core.Run
import Bqti.Pex.Router
import Bqti.Pex.View

/-!
# Calls that run at the same time

The swarms and the sessions of a node have a lock each, and no call holds both: what a call does
under one lock is a step of its own, and other calls take steps in between. A message about a
change is about the swarm that its call has read, whatever has become of the swarm since then.
-/

namespace Bqti.Pex

open Bqti.Core Bqti.Dht

/-! ## Halves of a disconnection -/

namespace PexRouter

/-- What is done under the lock of the swarms. -/
def erase (r : PexRouter) (infoHash : InfoHash) (addr : SocketAddr) : PexRouter :=
  { r with
    swarms :=
      match r.swarms infoHash with
      | none => r.swarms
      | some peers => Function.update r.swarms infoHash (some (peers.erase addr)) }

/-- What is done under the lock of the sessions. -/
def forget (r : PexRouter) (addr : SocketAddr) : PexRouter :=
  { r with sessions := Function.update r.sessions addr none }

/-- A member that disconnects is erased from the swarm and from the records. -/
theorem disconnect_eq (r : PexRouter) (h : InfoHash) (addr : SocketAddr) :
    r.disconnect h addr = (r.erase h addr).forget addr := rfl

/-- Erasing a member keeps the swarms bounded. -/
theorem Bounded.erase {r : PexRouter} (hr : r.Bounded) (h : InfoHash) (addr : SocketAddr) :
    (r.erase h addr).Bounded := hr.disconnect h addr

end PexRouter

/-! ## Messages about a change -/

/-- A message about the change to a swarm. -/
structure PexMessage.WellFormed (m : PexMessage) (current : Finset SocketAddr) : Prop where
  added_nodup : m.added.Nodup
  dropped_nodup : m.dropped.Nodup
  disjoint : m.added.Disjoint m.dropped
  bounded : m.added.length + m.dropped.length ≤ maxPexDelta
  added_mem : ∀ addr ∈ m.added, addr ∈ current
  dropped_notMem : ∀ addr ∈ m.dropped, addr ∉ current

/-- A message that is cut is well formed. -/
theorem PexMessage.wellFormed_cut {current last : Finset SocketAddr}
    {listed recorded : List SocketAddr}
    (h : InfoHash) (hlisted : Lists listed current) (hrecorded : Lists recorded last) :
    (cut h (listed.filter (· ∉ last)) (recorded.filter (· ∉ current))).WellFormed current := by
  have hadded := hlisted.filter_notMem last
  have hdropped := hrecorded.filter_notMem current
  have hin : ∀ addr ∈ (listed.filter (· ∉ last)).take maxPexDelta, addr ∈ current :=
    fun addr haddr => (Finset.mem_sdiff.mp (hadded.mem_iff.mp (List.mem_of_mem_take haddr))).1
  have hout : ∀ n, ∀ addr ∈ (recorded.filter (· ∉ current)).take n, addr ∉ current :=
    fun n addr haddr => (Finset.mem_sdiff.mp (hdropped.mem_iff.mp (List.mem_of_mem_take haddr))).2
  exact
    { added_nodup := hadded.1.sublist (List.take_sublist _ _)
      dropped_nodup := hdropped.1.sublist (List.take_sublist _ _)
      disjoint := fun addr hmem hgone => hout _ addr hgone (hin addr hmem)
      bounded := by
        have hnew := List.length_take_le maxPexDelta (listed.filter (· ∉ last))
        have hgone := List.length_take_le
          (maxPexDelta - ((listed.filter (· ∉ last)).take maxPexDelta).length)
          (recorded.filter (· ∉ current))
        simp only [cut]
        omega
      added_mem := hin
      dropped_notMem := hout _ }

/-! ## Calls -/

/-- What a call does in one step. -/
inductive Action
  | insert (infoHash : InfoHash) (addr : SocketAddr)
  | erase (infoHash : InfoHash) (addr : SocketAddr)
  | forget (addr : SocketAddr)
  | readMessage (infoHash : InfoHash) (peer : SocketAddr)
  | recordMessage (infoHash : InfoHash) (peer : SocketAddr) (current : Finset SocketAddr)
  | readDelta (infoHash : InfoHash) (peer : SocketAddr)
  | recordDelta (infoHash : InfoHash) (peer : SocketAddr) (current : Finset SocketAddr)
  | send (infoHash : InfoHash) (peer : SocketAddr)
  deriving DecidableEq

/-- What an action does to the router, if that is all it does. -/
def Action.onRouter (r : PexRouter) : Action → Option PexRouter
  | .insert h addr => some (r.announce h addr)
  | .erase h addr => some (r.erase h addr)
  | .forget addr => some (r.forget addr)
  | _ => none

/-- A call to a node. The gossip of a node calls for the changes itself, and disconnects a peer that
they cannot be sent to. -/
inductive PexCall
  | announce (infoHash : InfoHash) (addr : SocketAddr)
  | disconnect (infoHash : InfoHash) (addr : SocketAddr)
  | handleIncoming (incoming : PexMessage) (socket : SocketAddr)
  | message (infoHash : InfoHash) (peer : SocketAddr)
  | delta (infoHash : InfoHash) (peer : SocketAddr)

/-- The steps of a disconnection. -/
def disconnecting (infoHash : InfoHash) (addr : SocketAddr) : List Action :=
  [.erase infoHash addr, .forget addr]

/-- The steps of a call, as far as they do not depend on what it reads. -/
def PexCall.actions : PexCall → List Action
  | .announce infoHash addr => [.insert infoHash addr]
  | .disconnect infoHash addr => disconnecting infoHash addr
  | .handleIncoming incoming socket =>
      [.insert incoming.infoHash socket, .readMessage incoming.infoHash socket,
        .send incoming.infoHash socket] ++
        incoming.added.map (.insert incoming.infoHash) ++
        incoming.dropped.flatMap (disconnecting incoming.infoHash)
  | .message infoHash peer => [.readMessage infoHash peer]
  | .delta infoHash peer => [.readDelta infoHash peer]

/-- A node with the steps that its calls have left to do, and with what `message` and `delta` have
returned in each of them last. -/
structure PexNode where
  router : PexRouter
  tasks : List (List Action)
  results : ℕ → Option (Option PexMessage)

/-- A call comes in, or one of those that run takes a step: with the orders in which it walks
through a swarm and a record, and whether it can send. -/
inductive PexStep
  | spawn (call : PexCall)
  | act (task : ℕ) (listed recorded : List SocketAddr) (linked : Bool)

/-- The call that takes a step. -/
def PexStep.task : PexStep → Option ℕ
  | .spawn _ => none
  | .act k _ _ _ => some k

namespace PexNode

/-- A node without swarms, sessions and calls. -/
def start : PexNode := ⟨.create, [], fun _ => none⟩

/-- A call goes on. -/
def continue_ (s : PexNode) (k : ℕ) (router : PexRouter) (rest : List Action) : PexNode :=
  { s with router := router, tasks := s.tasks.set k rest }

/-- A call goes on with what it has been told. -/
def answer (s : PexNode) (k : ℕ) (told : PexRouter × Option PexMessage) (rest : List Action) :
    PexNode where
  router := told.1
  tasks := s.tasks.set k rest
  results := Function.update s.results k (some told.2)

/-- The next action of a call. A call that has nothing to tell ends there. -/
def act (s : PexNode) (k : ℕ) (rest : List Action) (listed recorded : List SocketAddr)
    (linked : Bool) : Action → Option PexNode
  | .insert h addr => some (s.continue_ k (s.router.announce h addr) rest)
  | .erase h addr => some (s.continue_ k (s.router.erase h addr) rest)
  | .forget addr => some (s.continue_ k (s.router.forget addr) rest)
  | .readMessage h peer =>
      match s.router.swarms h with
      | none => some (s.answer k (s.router, none) [])
      | some current =>
          if current = ∅ then some (s.answer k (s.router, none) [])
          else some (s.continue_ k s.router (.recordMessage h peer current :: rest))
  | .recordMessage h peer current =>
      if Lists listed current then
        some (s.answer k
          (s.router.record peer current, some ⟨h, listed.take maxPexDelta, []⟩) rest)
      else none
  | .readDelta h peer =>
      match s.router.swarms h with
      | none => some (s.answer k (s.router, none) [])
      | some current => some (s.continue_ k s.router (.recordDelta h peer current :: rest))
  | .recordDelta h peer current =>
      if Lists listed current ∧ Lists recorded (s.router.lastSent peer) then
        some (s.answer k (s.router.recordDelta h peer current listed recorded) rest)
      else none
  | .send h peer =>
      some (s.continue_ k s.router (if linked then rest else disconnecting h peer ++ rest))

/-- A new task, or the next action of one. -/
def step (s : PexNode) : PexStep → Option PexNode
  | .spawn call => some { s with tasks := s.tasks ++ [call.actions] }
  | .act k listed recorded linked =>
      match s.tasks[k]? with
      | some (action :: rest) => s.act k rest listed recorded linked action
      | _ => none

/-- A call has come to its end. -/
def Done (s : PexNode) (k : ℕ) : Prop := s.tasks[k]? = some []

variable {s t : PexNode} {k : ℕ} {h : InfoHash} {peer : SocketAddr} {rest : List Action}
  {listed recorded : List SocketAddr} {linked : Bool} {l : PexStep}

/-! ## One step -/

/-- An action concerns the call that takes it and the router. -/
theorem act_frame {action : Action} (hact : s.act k rest listed recorded linked action = some t) :
    (∃ rest', t.tasks = s.tasks.set k rest') ∧ ∀ j, j ≠ k → t.results j = s.results j := by
  have hcontinue : ∀ router rest', s.continue_ k router rest' = t →
      (∃ rest', t.tasks = s.tasks.set k rest') ∧ ∀ j, j ≠ k → t.results j = s.results j := by
    rintro router rest' rfl
    exact ⟨⟨rest', rfl⟩, fun _ _ => rfl⟩
  have hanswer : ∀ told rest', s.answer k told rest' = t →
      (∃ rest', t.tasks = s.tasks.set k rest') ∧ ∀ j, j ≠ k → t.results j = s.results j := by
    rintro told rest' rfl
    exact ⟨⟨rest', rfl⟩, fun _ hj => Function.update_of_ne hj ..⟩
  cases action with
  | insert h addr => exact hcontinue _ _ (Option.some.inj hact)
  | erase h addr => exact hcontinue _ _ (Option.some.inj hact)
  | forget addr => exact hcontinue _ _ (Option.some.inj hact)
  | send h peer => exact hcontinue _ _ (Option.some.inj hact)
  | readMessage h peer =>
    rw [act] at hact
    split at hact
    · exact hanswer _ _ (Option.some.inj hact)
    · split at hact
      · exact hanswer _ _ (Option.some.inj hact)
      · exact hcontinue _ _ (Option.some.inj hact)
  | recordMessage h peer current =>
    obtain ⟨-, hact⟩ := Option.ite_none_right_eq_some.mp hact
    exact hanswer _ _ (Option.some.inj hact)
  | readDelta h peer =>
    rw [act] at hact
    split at hact
    · exact hanswer _ _ (Option.some.inj hact)
    · exact hcontinue _ _ (Option.some.inj hact)
  | recordDelta h peer current =>
    obtain ⟨-, hact⟩ := Option.ite_none_right_eq_some.mp hact
    exact hanswer _ _ (Option.some.inj hact)

/-- No action makes a swarm too large. -/
theorem act_bounded {action : Action} (hs : s.router.Bounded)
    (hact : s.act k rest listed recorded linked action = some t) : t.router.Bounded := by
  cases action with
  | insert h addr => exact Option.some.inj hact ▸ hs.announce h addr
  | erase h addr => exact Option.some.inj hact ▸ hs.erase h addr
  | forget addr => exact Option.some.inj hact ▸ hs
  | send h peer => exact Option.some.inj hact ▸ hs
  | readMessage h peer =>
    rw [act] at hact
    split at hact
    · exact Option.some.inj hact ▸ hs
    · split at hact <;> exact Option.some.inj hact ▸ hs
  | recordMessage h peer current =>
    obtain ⟨-, hact⟩ := Option.ite_none_right_eq_some.mp hact
    exact Option.some.inj hact ▸ hs
  | readDelta h peer =>
    rw [act] at hact
    split at hact <;> exact Option.some.inj hact ▸ hs
  | recordDelta h peer current =>
    obtain ⟨⟨hlisted, hrecorded⟩, hact⟩ := Option.ite_none_right_eq_some.mp hact
    obtain rfl := Option.some.inj hact
    rw [PexRouter.recordDelta_eq hlisted hrecorded]
    exact hs

/-- The size of a swarm stays within its bound. -/
theorem step_bounded (hs : s.router.Bounded) (hstep : step s l = some t) : t.router.Bounded := by
  cases l with
  | spawn call => exact Option.some.inj hstep ▸ hs
  | act k listed recorded linked =>
    rw [step] at hstep
    split at hstep
    · exact act_bounded hs hstep
    · cases hstep

/-- A task does its first action. -/
theorem step_act_eq_some : step s (.act k listed recorded linked) = some t ↔
    ∃ action rest, s.tasks[k]? = some (action :: rest) ∧
      s.act k rest listed recorded linked action = some t := by
  rw [step]
  split
  · rename_i action rest htask
    simp [htask]
  · rename_i hnone
    constructor
    · rintro ⟨⟩
    · rintro ⟨action, rest, htask, -⟩
      exact absurd htask (hnone action rest)

/-- Steps of other calls leave a call alone. -/
theorem step_of_ne {pending : List Action} (hl : l.task ≠ some k)
    (htask : s.tasks[k]? = some pending) (hstep : step s l = some t) :
    t.tasks[k]? = some pending ∧ t.results k = s.results k := by
  cases l with
  | spawn call =>
    obtain rfl := Option.some.inj hstep
    exact ⟨by rw [List.getElem?_append_left (List.getElem?_eq_some_iff.mp htask).1, htask], rfl⟩
  | act j listed recorded linked =>
    obtain ⟨action, rest, -, hact⟩ := step_act_eq_some.mp hstep
    obtain ⟨⟨rest', htasks⟩, hresults⟩ := act_frame hact
    have hne : k ≠ j := fun heq => hl (heq ▸ rfl)
    exact ⟨by rw [htasks, List.getElem?_set_ne hne.symm, htask], hresults k hne⟩

/-- The call that takes a step has an action left, and it is this one if it is known. -/
theorem step_self {action : Action} (hl : l.task = some k)
    (htask : s.tasks[k]? = some (action :: rest)) (hstep : step s l = some t) :
    ∃ listed recorded linked, s.act k rest listed recorded linked action = some t := by
  cases l with
  | spawn call => cases hl
  | act j listed recorded linked =>
    obtain rfl := Option.some.inj hl
    obtain ⟨action', rest', htask', hact⟩ := step_act_eq_some.mp hstep
    obtain ⟨rfl, rfl⟩ := List.cons.inj (Option.some.inj (htask.symm.trans htask'))
    exact ⟨listed, recorded, linked, hact⟩

/-- A call that has come to its end takes no step. -/
theorem Done.task_ne (hdone : s.Done k) (hstep : step s l = some t) : l.task ≠ some k := by
  cases l with
  | spawn call => nofun
  | act j listed recorded linked =>
    rintro ⟨⟩
    obtain ⟨action, rest, htask, -⟩ := step_act_eq_some.mp hstep
    cases hdone.symm.trans htask

/-! ## Calls without others -/

/-- A task that goes on leaves the router that it was given. -/
theorem continue_router (s : PexNode) (k : ℕ) (router : PexRouter) (rest : List Action) :
    (s.continue_ k router rest).router = router := rfl

@[simp] theorem continue_continue (s : PexNode) (k : ℕ) (router router' : PexRouter)
    (rest rest' : List Action) : (s.continue_ k router rest).continue_ k router' rest' =
      s.continue_ k router' rest' := by
  simp [continue_]

@[simp] theorem continue_answer (s : PexNode) (k : ℕ) (router : PexRouter)
    (told : PexRouter × Option PexMessage) (rest rest' : List Action) :
    (s.continue_ k router rest).answer k told rest' = s.answer k told rest' := by
  simp [continue_, answer]

/-- One action of a call that has it to do next. -/
theorem run_act {action : Action} {labels : List PexStep}
    (htask : s.tasks[k]? = some (action :: rest)) :
    run step s (.act k listed recorded linked :: labels) =
      (s.act k rest listed recorded linked action).bind fun t => run step t labels := by
  rw [run, step, htask]

/-- A task that goes on has the rest of its actions left. -/
theorem continue_task {pending : List Action} (htask : s.tasks[k]? = some pending)
    (router : PexRouter) (rest : List Action) :
    (s.continue_ k router rest).tasks[k]? = some rest :=
  List.getElem?_set_self (List.getElem?_eq_some_iff.mp htask).1

/-- Without others in between the two steps, what is told is the change. -/
theorem run_delta {current : Finset SocketAddr}
    (htask : s.tasks[k]? = some (.readDelta h peer :: rest))
    (hcurrent : s.router.swarms h = some current) (hlisted : Lists listed current)
    (hrecorded : Lists recorded (s.router.lastSent peer)) :
    run step s [.act k [] [] true, .act k listed recorded true] =
      some (s.answer k (s.router.delta h peer listed recorded) rest) := by
  rw [run_act htask, act, hcurrent, Option.bind_some, run_act (continue_task htask _ _), act,
    if_pos ⟨hlisted, hrecorded⟩, PexRouter.delta_eq_recordDelta hcurrent, continue_answer]
  rfl

/-- An action that only changes the router lets the task go on. -/
theorem act_of_onRouter {action : Action} {router : PexRouter}
    (hrouter : action.onRouter s.router = some router) :
    s.act k rest listed recorded linked action = some (s.continue_ k router rest) := by
  cases action with
  | insert h addr => exact Option.some.inj hrouter ▸ rfl
  | erase h addr => exact Option.some.inj hrouter ▸ rfl
  | forget addr => exact Option.some.inj hrouter ▸ rfl
  | _ => cases hrouter

/-- Announcements and disconnections, one after the other. -/
theorem run_onRouter {actions : List Action} {router : PexRouter}
    (hrouter : actions.foldlM Action.onRouter s.router = some router)
    (htask : s.tasks[k]? = some (actions ++ rest)) :
    run step s (actions.map fun _ => .act k [] [] true) = some (s.continue_ k router rest) := by
  induction actions generalizing s with
  | nil =>
    obtain ⟨hk, hrest⟩ := List.getElem?_eq_some_iff.mp htask
    obtain rfl := Option.some.inj hrouter
    rw [List.map_nil, run_nil, continue_, ← List.nil_append rest, ← hrest, List.set_getElem_self]
  | cons a actions ih =>
    rw [List.foldlM_cons] at hrouter
    obtain ⟨next, ha, hrouter⟩ := Option.bind_eq_some_iff.mp hrouter
    have hnext : s.tasks[k]? = some (a :: (actions ++ rest)) := htask
    rw [List.map_cons, run_act hnext, act_of_onRouter ha, Option.bind_some,
      ih hrouter (continue_task hnext _ _), continue_continue]

/-- Insertions one by one announce the addresses one after the other. -/
theorem foldlM_insert (h : InfoHash) (addrs : List SocketAddr) (r : PexRouter) :
    (addrs.map (Action.insert h)).foldlM Action.onRouter r =
      some (addrs.foldl (·.announce h ·) r) := by
  induction addrs generalizing r with
  | nil => rfl
  | cons addr addrs ih => exact ih (r.announce h addr)

/-- Disconnections one by one disconnect the addresses one after the other. -/
theorem foldlM_disconnecting (h : InfoHash) (addrs : List SocketAddr) (r : PexRouter) :
    (addrs.flatMap (disconnecting h)).foldlM Action.onRouter r =
      some (addrs.foldl (·.disconnect h ·) r) := by
  induction addrs generalizing r with
  | nil => rfl
  | cons addr addrs ih => exact ih (r.disconnect h addr)

/-- What a call does with the members that a message brings, the last of its steps. -/
def revising (m : PexMessage) : List Action :=
  m.added.map (.insert m.infoHash) ++ m.dropped.flatMap (disconnecting m.infoHash)

/-- Taking in a message one action at a time drops and adds what it says. -/
theorem foldlM_revising (m : PexMessage) (r : PexRouter) :
    (revising m).foldlM Action.onRouter r =
      some (m.dropped.foldl (·.disconnect m.infoHash ·)
        (m.added.foldl (·.announce m.infoHash ·) r)) := by
  rw [revising, List.foldlM_append, foldlM_insert, Option.bind_eq_bind, Option.bind_some,
    foldlM_disconnecting]

/-- Without others in between, a peer is announced and told of the whole swarm. -/
theorem run_announce_message
    (htask : s.tasks[k]? = some (.insert h peer :: .readMessage h peer :: rest))
    (hlisted : Lists listed ((s.router.announce h peer).swarm h)) :
    run step s [.act k [] [] true, .act k [] [] true, .act k listed [] true] =
      some (s.answer k ((s.router.announce h peer).message h peer listed) rest) := by
  have hcurrent : (s.router.announce h peer).swarms h =
      some ((s.router.announce h peer).swarm h) := by
    rw [PexRouter.announce_swarm_self]
    exact Function.update_self ..
  have hsome := PexRouter.announce_swarm_ne_empty s.router h peer
  rw [run_act htask, act, Option.bind_some, run_act (continue_task htask _ _), act,
    continue_router, hcurrent]
  simp only [if_neg hsome, Option.bind_some, continue_continue]
  rw [run_act (continue_task htask _ _), act, if_pos hlisted, Option.bind_some, continue_answer,
    continue_router, PexRouter.message_eq_some hsome]
  rfl

/-- Without others in between its steps, a call that handles a message does what it does at once. -/
theorem run_handleIncoming (incoming : PexMessage) (socket : SocketAddr)
    (htask : s.tasks[k]? = some (PexCall.handleIncoming incoming socket).actions)
    (hlisted : Lists listed
      ((s.router.announce incoming.infoHash socket).swarm incoming.infoHash)) (linked : Bool) :
    ∃ labels t, run step s labels = some t ∧ t.Done k ∧
      t.router = (s.router.handleIncoming incoming socket listed linked).1 := by
  let h := incoming.infoHash
  let told := (s.router.announce h socket).message h socket listed
  have hk := (List.getElem?_eq_some_iff.mp htask).1
  have hactions : s.tasks[k]? = some (.insert h socket :: .readMessage h socket ::
      .send h socket :: revising incoming) := htask
  have hgreet := run_announce_message hactions hlisted
  have hsend : (s.answer k told (.send h socket :: revising incoming)).tasks[k]? =
      some (.send h socket :: revising incoming) := List.getElem?_set_self hk
  -- what is left after the message was sent, or was not
  let left := (if linked then [] else disconnecting h socket) ++ revising incoming
  let sent := if linked then told.1 else told.1.disconnect h socket
  have hact : (s.answer k told (.send h socket :: revising incoming)).act k (revising incoming)
      [] [] linked (.send h socket) = some (s.answer k told left) := by
    cases linked <;> simp [act, answer, continue_, left]
  have hleft : left.foldlM Action.onRouter told.1 = some
      (incoming.dropped.foldl (·.disconnect h ·) (incoming.added.foldl (·.announce h ·) sent)) := by
    have hsent : (if linked then [] else disconnecting h socket).foldlM Action.onRouter told.1 =
        some sent := by
      cases linked <;> rfl
    rw [List.foldlM_append, hsent, Option.bind_eq_bind, Option.bind_some, foldlM_revising]
  have hfinal : (s.answer k told left).tasks[k]? = some (left ++ []) := by
    rw [List.append_nil]
    exact List.getElem?_set_self hk
  have hsends : run step (s.answer k told (.send h socket :: revising incoming))
      [.act k [] [] linked] = some (s.answer k told left) := by
    rw [run_act hsend, hact, Option.bind_some, run_nil]
  refine ⟨_, _, run_append_eq_some.mpr ⟨_, hgreet, run_append_eq_some.mpr
    ⟨_, hsends, run_onRouter hleft hfinal⟩⟩, continue_task hfinal _ _, ?_⟩
  have hmessage := PexRouter.message_eq_some
    (PexRouter.announce_swarm_ne_empty s.router incoming.infoHash socket) socket listed
  rw [continue_, PexRouter.handleIncoming]
  simp only [sent, told, h, hmessage]
  cases linked <;> rfl

/-! ## What a call tells -/

/-- A call for the change has read a swarm, and will tell of it or has told of it. -/
def Reads (s : PexNode) (k : ℕ) (h : InfoHash) (peer : SocketAddr) (current : Finset SocketAddr) :
    Prop :=
  s.tasks[k]? = some [.recordDelta h peer current] ∨
    s.Done k ∧ ∃ result, s.results k = some result ∧ ∀ m, result = some m → m.WellFormed current

/-- Whatever happens next, a call tells of the swarm that it has read. -/
theorem Reads.step {current : Finset SocketAddr} (hs : s.Reads k h peer current)
    (hstep : PexNode.step s l = some t) : t.Reads k h peer current := by
  rcases hs with htask | ⟨hdone, result, hresult, hformed⟩
  · by_cases hl : l.task = some k
    · obtain ⟨listed, recorded, linked, hact⟩ := step_self hl htask hstep
      obtain ⟨⟨hlisted, hrecorded⟩, hact⟩ := Option.ite_none_right_eq_some.mp hact
      obtain rfl := Option.some.inj hact
      refine .inr ⟨List.getElem?_set_self (List.getElem?_eq_some_iff.mp htask).1, _,
        Function.update_self .., fun m hm => ?_⟩
      rw [PexRouter.recordDelta_eq hlisted hrecorded] at hm
      obtain ⟨-, hm⟩ := Option.ite_none_left_eq_some.mp hm
      exact Option.some.inj hm ▸ PexMessage.wellFormed_cut h hlisted hrecorded
    · exact .inl (step_of_ne hl htask hstep).1
  · obtain ⟨htask, hkeep⟩ := step_of_ne (hdone.task_ne hstep) hdone hstep
    exact .inr ⟨htask, result, hkeep.trans hresult, hformed⟩

/-- The swarm that is read is the swarm at that moment. -/
theorem reads_of_readDelta (htask : s.tasks[k]? = some [.readDelta h peer])
    (hstep : step s (.act k listed recorded linked) = some t) :
    t.Reads k h peer (s.router.swarm h) := by
  have hk := (List.getElem?_eq_some_iff.mp htask).1
  obtain ⟨listed, recorded, linked, hact⟩ := step_self rfl htask hstep
  rw [act] at hact
  split at hact
  · obtain rfl := Option.some.inj hact
    exact .inr ⟨List.getElem?_set_self hk, none, Function.update_self .., nofun⟩
  · rename_i current hcurrent
    obtain rfl := Option.some.inj hact
    rw [PexRouter.swarm_eq hcurrent]
    exact .inl (List.getElem?_set_self hk)

/-! ## The change after the change -/

/-- The record of a peer is the swarm, if there is one. -/
def Told (r : PexRouter) (h : InfoHash) (peer : SocketAddr) : Prop :=
  ∀ current, r.swarms h = some current → r.lastSent peer = current

/-- A call for the change without others: it leaves the record as the swarm. -/
def Telling (s : PexNode) (k : ℕ) (h : InfoHash) (peer : SocketAddr) : Prop :=
  s.tasks[k]? = some [.readDelta h peer] ∨
    (∃ current, s.tasks[k]? = some [.recordDelta h peer current] ∧
      s.router.swarms h = some current) ∨
    s.Done k ∧ Told s.router h peer

/-- A second one: it has nothing to tell. -/
def Repeating (s : PexNode) (k : ℕ) (h : InfoHash) (peer : SocketAddr) : Prop :=
  s.tasks[k]? = some [.readDelta h peer] ∧ Told s.router h peer ∨
    s.tasks[k]? = some [.recordDelta h peer (s.router.lastSent peer)] ∨
    s.Done k ∧ s.results k = some none

/-- A call that comes in changes nothing for the others. -/
theorem step_spawn {pending : List Action} (hl : l.task = none) (htask : s.tasks[k]? = some pending)
    (hstep : step s l = some t) :
    t.tasks[k]? = some pending ∧ t.results k = s.results k ∧ t.router = s.router := by
  obtain ⟨hkeep, hresult⟩ := step_of_ne (by simp [hl]) htask hstep
  cases l with
  | spawn call => exact ⟨hkeep, hresult, Option.some.inj hstep ▸ rfl⟩
  | act j listed recorded linked => cases hl

/-- A task that is telling a peer goes on telling it. -/
theorem Telling.step (hs : s.Telling k h peer) (hl : l.task = none ∨ l.task = some k)
    (hstep : PexNode.step s l = some t) : t.Telling k h peer := by
  rcases hs with htask | ⟨current, htask, hcurrent⟩ | ⟨hdone, htold⟩
  · rcases hl with hl | hl
    · exact .inl (step_spawn hl htask hstep).1
    · have hk := (List.getElem?_eq_some_iff.mp htask).1
      obtain ⟨listed, recorded, linked, hact⟩ := step_self hl htask hstep
      rw [act] at hact
      split at hact
      · rename_i habsent
        obtain rfl := Option.some.inj hact
        refine .inr (.inr ⟨List.getElem?_set_self hk, fun current hcurrent => ?_⟩)
        cases habsent.symm.trans hcurrent
      · rename_i current hcurrent
        obtain rfl := Option.some.inj hact
        exact .inr (.inl ⟨current, List.getElem?_set_self hk, hcurrent⟩)
  · rcases hl with hl | hl
    · obtain ⟨hkeep, -, hrouter⟩ := step_spawn hl htask hstep
      exact .inr (.inl ⟨current, hkeep, hrouter ▸ hcurrent⟩)
    · have hk := (List.getElem?_eq_some_iff.mp htask).1
      obtain ⟨listed, recorded, linked, hact⟩ := step_self hl htask hstep
      obtain ⟨⟨hlisted, hrecorded⟩, hact⟩ := Option.ite_none_right_eq_some.mp hact
      obtain rfl := Option.some.inj hact
      refine .inr (.inr ⟨List.getElem?_set_self hk, fun swarm hswarm => ?_⟩)
      rw [answer, PexRouter.recordDelta_eq hlisted hrecorded] at hswarm ⊢
      rw [PexRouter.lastSent, PexRouter.record_sessions_self]
      exact Option.some.inj (hcurrent.symm.trans hswarm)
  · obtain ⟨hkeep, -, hrouter⟩ :=
      step_spawn (hl.resolve_right (hdone.task_ne hstep)) hdone hstep
    exact .inr (.inr ⟨hkeep, hrouter ▸ htold⟩)

/-- A task that repeats itself goes on doing so. -/
theorem Repeating.step (hs : s.Repeating k h peer) (hl : l.task = none ∨ l.task = some k)
    (hstep : PexNode.step s l = some t) : t.Repeating k h peer := by
  rcases hs with ⟨htask, htold⟩ | htask | ⟨hdone, hresult⟩
  · rcases hl with hl | hl
    · obtain ⟨hkeep, -, hrouter⟩ := step_spawn hl htask hstep
      exact .inl ⟨hkeep, hrouter ▸ htold⟩
    · have hk := (List.getElem?_eq_some_iff.mp htask).1
      obtain ⟨listed, recorded, linked, hact⟩ := step_self hl htask hstep
      rw [act] at hact
      split at hact
      · obtain rfl := Option.some.inj hact
        exact .inr (.inr ⟨List.getElem?_set_self hk, Function.update_self ..⟩)
      · rename_i current hcurrent
        obtain rfl := Option.some.inj hact
        obtain rfl := htold current hcurrent
        exact .inr (.inl (List.getElem?_set_self hk))
  · rcases hl with hl | hl
    · obtain ⟨hkeep, -, hrouter⟩ := step_spawn hl htask hstep
      exact .inr (.inl (hrouter ▸ hkeep))
    · have hk := (List.getElem?_eq_some_iff.mp htask).1
      obtain ⟨listed, recorded, linked, hact⟩ := step_self hl htask hstep
      obtain ⟨⟨hlisted, hrecorded⟩, hact⟩ := Option.ite_none_right_eq_some.mp hact
      obtain rfl := Option.some.inj hact
      refine .inr (.inr ⟨List.getElem?_set_self hk, ?_⟩)
      rw [answer, PexRouter.recordDelta_eq hlisted hrecorded, if_pos rfl]
      exact Function.update_self ..
  · obtain ⟨hkeep, hresult', -⟩ :=
      step_spawn (hl.resolve_right (hdone.task_ne hstep)) hdone hstep
    exact .inr (.inr ⟨hkeep, hresult'.trans hresult⟩)

/-! ## Runs -/

/-- One call takes steps, and calls come in. -/
def Alone (k : ℕ) (labels : List PexStep) : Prop :=
  ∀ l ∈ labels, l.task = none ∨ l.task = some k

instance (k : ℕ) (labels : List PexStep) : Decidable (Alone k labels) :=
  inferInstanceAs (Decidable (∀ l ∈ labels, l.task = none ∨ l.task = some k))

/-- In every run the swarms are bounded. -/
theorem bounded_of_run {labels : List PexStep} (hrun : run step start labels = some s) :
    s.router.Bounded := by
  have hstart : start.router.Bounded := fun _ => Nat.zero_le _
  have hkeep : ∀ (s : PexNode) l t, s.router.Bounded → step s l = some t → t.router.Bounded :=
    fun _ _ _ hs hstep => step_bounded hs hstep
  exact (run_invariant hkeep hstart hrun :)

/-- A call for the change tells of the swarm as it was when it was read. -/
theorem result_of_readDelta {after : List PexStep} (htask : s.tasks[k]? = some [.readDelta h peer])
    (hrun : run step s (.act k listed recorded linked :: after) = some t) (hdone : t.Done k) :
    ∃ result, t.results k = some result ∧
      ∀ m, result = some m → m.WellFormed (s.router.swarm h) := by
  obtain ⟨read, hread, hafter⟩ := run_cons_eq_some.mp hrun
  have hkeep : ∀ u l v, Reads u k h peer (s.router.swarm h) → step u l = some v →
      Reads v k h peer (s.router.swarm h) := fun _ _ _ hs hstep => hs.step hstep
  rcases run_invariant hkeep (reads_of_readDelta htask hread) hafter with htask' | ⟨-, hresult⟩
  · cases hdone.symm.trans htask'
  · exact hresult

/-- A call for the change that has come to its end without others has told the peer of all. -/
theorem told_of_alone {labels : List PexStep} (halone : Alone k labels)
    (htask : s.tasks[k]? = some [.readDelta h peer]) (hrun : run step s labels = some t)
    (hdone : t.Done k) : Told t.router h peer := by
  have hkeep : ∀ s l t, Telling s k h peer → l.task = none ∨ l.task = some k →
      step s l = some t → Telling t k h peer := fun _ _ _ hs hl hstep => hs.step hl hstep
  have hstart : s.Telling k h peer := .inl htask
  rcases run_invariant_along hkeep hstart (along_of_forall halone) hrun with
    htask' | ⟨current, htask', -⟩ | ⟨-, htold⟩
  · cases hdone.symm.trans htask'
  · cases hdone.symm.trans htask'
  · exact htold

/-- In that state a second call for the change has nothing to tell. -/
theorem result_of_told {labels : List PexStep} (halone : Alone k labels)
    (htask : s.tasks[k]? = some [.readDelta h peer]) (htold : Told s.router h peer)
    (hrun : run step s labels = some t) (hdone : t.Done k) : t.results k = some none := by
  have hkeep : ∀ s l t, Repeating s k h peer → l.task = none ∨ l.task = some k →
      step s l = some t → Repeating t k h peer := fun _ _ _ hs hl hstep => hs.step hl hstep
  have hstart : s.Repeating k h peer := .inl ⟨htask, htold⟩
  rcases run_invariant_along hkeep hstart (along_of_forall halone) hrun with
    ⟨htask', -⟩ | htask' | ⟨-, hresult⟩
  · cases hdone.symm.trans htask'
  · cases hdone.symm.trans htask'
  · exact hresult

end PexNode

/-- In every run of calls, whatever they do in between the steps of each other: no swarm is too
large; a message about a change is well formed with respect to the swarm at the moment at which its
call has read it; and a second call for the change of a swarm, after a first one and with no others
from the moment on at which that has read the swarm, returns nothing. -/
theorem deltas_wellFormed {labels : List PexStep} {s : PexNode}
    (hrun : run PexNode.step .start labels = some s) :
    (∀ h, (s.router.swarm h).card ≤ maxSwarmSize) ∧
    (∀ k h peer listed recorded linked after t, s.tasks[k]? = some [.readDelta h peer] →
      run PexNode.step s (.act k listed recorded linked :: after) = some t → t.Done k →
      ∃ result, t.results k = some result ∧
        ∀ m, result = some m → m.WellFormed (s.router.swarm h)) ∧
    ∀ k k' h peer first second t u, s.tasks[k]? = some [.readDelta h peer] →
      PexNode.Alone k first → run PexNode.step s first = some t → t.Done k →
      t.tasks[k']? = some [.readDelta h peer] →
      PexNode.Alone k' second → run PexNode.step t second = some u → u.Done k' →
      u.results k' = some none := by
  refine ⟨PexNode.bounded_of_run hrun, ?_, ?_⟩
  · intro k h peer listed recorded linked after t htask hafter hdone
    exact PexNode.result_of_readDelta htask hafter hdone
  · intro k k' h peer first second t u htask hfirst hrun hdone htask' hsecond hrun' hdone'
    have htold := PexNode.told_of_alone hfirst htask hrun hdone
    exact PexNode.result_of_told hsecond htask' htold hrun' hdone'

/-- A member is announced, and two calls for the change come in. -/
def sampleCalls : List PexStep :=
  [.spawn (.announce sampleHash (sampleMember 1)), .act 0 [] [] true,
    .spawn (.delta sampleHash samplePeer), .spawn (.delta sampleHash samplePeer)]

/-- The steps of the first of them, and of the second. -/
def sampleFirst : List PexStep := [.act 1 [] [] true, .act 1 [sampleMember 1] [] true]

/-- The third task of the sample run goes through its actions. -/
def sampleSecond : List PexStep :=
  [.act 2 [] [] true, .act 2 [sampleMember 1] [sampleMember 1] true]

/-- In the sample run the messages are well formed and say nothing twice. -/
theorem deltas_wellFormed_sample : ∃ s t u, run PexNode.step .start sampleCalls = some s ∧
    run PexNode.step s sampleFirst = some t ∧ run PexNode.step t sampleSecond = some u ∧
    (s.router.swarm sampleHash).card ≤ maxSwarmSize ∧
    (∃ result, t.results 1 = some result ∧
      ∀ m, result = some m → m.WellFormed (s.router.swarm sampleHash)) ∧
    u.results 2 = some none := by
  have hall : ((run PexNode.step .start (sampleCalls ++ (sampleFirst ++ sampleSecond))).any fun u =>
      decide (u.tasks[2]? = some [])) = true := by decide +kernel
  have hfirst : ((run PexNode.step .start (sampleCalls ++ sampleFirst)).any fun t =>
      decide (t.tasks = [[], [], [.readDelta sampleHash samplePeer]])) = true := by decide +kernel
  have hcalls : ((run PexNode.step .start sampleCalls).any fun s =>
      decide (s.tasks[1]? = some [.readDelta sampleHash samplePeer])) = true := by decide +kernel
  obtain ⟨u, hu, hdone'⟩ := exists_of_any hall
  obtain ⟨s, hs, hrest⟩ := run_append_eq_some.mp hu
  obtain ⟨t, ht, hu⟩ := run_append_eq_some.mp hrest
  obtain ⟨s', hs', htask⟩ := exists_of_any hcalls
  obtain ⟨t', ht', htasks⟩ := exists_of_any hfirst
  obtain rfl := Option.some.inj (hs.symm.trans hs')
  obtain rfl := Option.some.inj ((run_append_eq_some.mpr ⟨s, hs, ht⟩).symm.trans ht')
  have hdone : t.Done 1 := by rw [PexNode.Done, htasks]; rfl
  have htask' : t.tasks[2]? = some [.readDelta sampleHash samplePeer] := by rw [htasks]; rfl
  have hformed := deltas_wellFormed hs
  exact ⟨s, t, u, hs, ht, hu, hformed.1 sampleHash,
    hformed.2.1 1 sampleHash samplePeer [] [] true _ t htask ht hdone,
    hformed.2.2 1 2 sampleHash samplePeer sampleFirst sampleSecond t u htask (by decide) ht hdone
      htask' (by decide) hu hdone'⟩

end Bqti.Pex
