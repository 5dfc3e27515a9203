import Bqti.Session.Peers.Refinement

/-!
# Both nodes become active

A handshake that is handled while the own dial is connecting is overwritten by the dial, and the
node ends up with an entry for itself. Unless a dial overwrites an entry or a bitfield overtakes
the handshake of a dial, both nodes hold active entries for each other in the end.
-/

namespace Bqti.Session.Peers

open Bqti.Core Bqti.Dht Bqti.Torrent
open Bqti.Session.Routing (StandardMessage SessionManager)
open Bqti.Session.Peers.Greeting

variable {D P S A : Type*}

section Nodes

variable [DecidableEq A] {nodes : Nodes D P S A} {s s' : Bool → Party D A}

/-- Both nodes show a greeting. -/
def Nodes.Greets (nodes : Nodes D P S A) (s : Bool → Party D A) (v : Bool → View) : Prop :=
  Linked v ∧ ∀ x,
    Shows (nodes.host x) (nodes.host !x).id (nodes.addr !x) (nodes.wire s !x) (s x) (v x)

/-- The nodes start without a greeting. -/
theorem Nodes.greets_start (nodes : Nodes D P S A) (mode : Bool → ActiveMode) :
    nodes.Greets (nodes.start mode) fun _ => .new := by
  refine ⟨linked_new, fun x => ?_⟩
  exact {
    entry := rfl
    dial := rfl
    stage := rfl
    heard := rfl
    seen := rfl
    taken := Nat.zero_le _
    sends := ⟨rfl, rfl, nofun, helloFirst_nil⟩
    known := nodes.known x
    routed := nofun }

/-- What one node sends is what the other one receives. -/
theorem Nodes.Greets.receives {v : Bool → View} (h : nodes.Greets s v) (x : Bool) :
    Receives (nodes.host x) (nodes.host !x).id (nodes.wire s !x) (v !x).hello (v !x).bits := by
  have hsends := (h.2 !x).sends
  refine { hsends with handshake := ?_ }
  intro infoHash peerId hmem
  have hown := hsends.handshake infoHash peerId hmem
  rw [nodes.sameTorrent x] at hown
  exact hown

/-- A step in turn leads to another greeting of the nodes. -/
theorem Nodes.Greets.step {v : Bool → View} (h : nodes.Greets s v) {l : Bool × Turn}
    (hstep : nodes.step s l = some s') (hturn : nodes.inTurn s l = true) :
    ∃ v', nodes.Greets s' v' := by
  obtain ⟨x, turn⟩ := l
  obtain ⟨p, hp, rfl⟩ := Option.map_eq_some_iff.mp hstep
  dsimp only at hp hturn ⊢
  obtain ⟨u, hu, hshows⟩ := (h.2 x).step (h.1.steady x) (h.receives x) hp hturn
  obtain ⟨messages, hwire⟩ := Party.step_wire hp
  have hother : Function.update s x p (!x) = s !x := Function.update_of_ne (by simp) ..
  refine ⟨Function.update v x u, hu.linked h.1, fun y => ?_⟩
  by_cases hy : y = x
  · subst hy
    rw [Function.update_self, Function.update_self, Nodes.wire, hother]
    exact hshows
  · cases Bool.eq_not_of_ne hy
    rw [hother, Function.update_of_ne (by simp), Nodes.wire, Bool.not_not, Function.update_self,
      hwire]
    have hold := (h.2 !x).inbound_append messages
    rw [Nodes.wire, Bool.not_not] at hold
    exact hold

/-- In a run in which no dial overwrites an entry that is no longer its own, and no bitfield
overtakes the handshake of a dial, whenever nothing is under way and a handshake was sent, both
nodes hold an active entry with the id of the other one. -/
theorem handshake_agreement (nodes : Nodes D P S A) (mode : Bool → ActiveMode)
    (labels : List (Bool × Turn)) (s : Bool → Party D A)
    (hcond : Along nodes.step (fun s l => nodes.inTurn s l = true) (nodes.start mode) labels)
    (h : run nodes.step (nodes.start mode) labels = some s) (hrest : nodes.AtRest s)
    (hsent : ∃ x, (nodes.wire s x).any StandardMessage.isHandshake = true) (x : Bool) :
    ∃ i p, (s x).session.peer (nodes.addr !x) = some (.active i) ∧
      (s x).session.pipelines[i]? = some p ∧
      p.peer = ⟨Key.new (nodes.host x).crypto (nodes.host !x).id, nodes.addr !x⟩ := by
  have hstep : ∀ s l s', (∃ v, nodes.Greets s v) → nodes.inTurn s l = true →
      nodes.step s l = some s' → ∃ v, nodes.Greets s' v :=
    fun _ _ _ ⟨_, hv⟩ hl ha => hv.step ha hl
  obtain ⟨v, hlinked, hshows⟩ :=
    run_invariant_along hstep ⟨_, nodes.greets_start mode⟩ hcond h
  have hall : ∀ y, (nodes.wire s !y).take (s y).handled = nodes.wire s !y := by
    intro y
    rw [(hrest y).2.2, List.take_length]
  have hatRest : AtRest v := {
    toLinked := hlinked
    idle := by
      intro y
      by_contra hne
      have hpart := ((hshows y).stage.takesPart hne).1
      rw [(hrest y).2.1] at hpart
      contradiction
    called := by
      intro y hy
      have hdial := (hshows y).dial
      rw [hy] at hdial
      rcases (hrest y).1 with hnone | hdone
      · cases hnone.symm.trans hdial
      · cases hdone.symm.trans hdial
    heard := by
      intro y hy
      rw [(hshows !y).heard, hall !y, Bool.not_not, ← hy, (hshows y).sends.hello, Nodes.wire]
    seen := by
      intro y hy
      rw [(hshows !y).seen, hall !y, Bool.not_not, ← hy, (hshows y).sends.bits, Nodes.wire] }
  have hhello : ∃ y, (v y).hello = true := by
    obtain ⟨y, hy⟩ := hsent
    exact ⟨y, (hshows y).sends.hello.trans hy⟩
  have hentry := (hshows x).entry
  rw [hatRest.active hhello x] at hentry
  exact hentry

end Nodes

/-- The nodes `[1]` and `[2]` with the sample torrent. -/
def sampleNodes : Nodes (List Bytes) Unit Unit Nat where
  host x := { sampleHost with id := if x then [2] else [1] }
  addr x := if x then 2 else 1
  manager _ := sampleManager
  sameTorrent _ := rfl
  known x := by cases x <;> rfl

/-- A number of turns of a node. -/
def sampleTurns (x : Bool) (steps : Nat) (turn : Turn) : List (Bool × Turn) :=
  List.replicate steps (x, turn)

/-- A message is taken and handled. -/
def sampleHandled (x : Bool) (steps : Nat) : List (Bool × Turn) :=
  (x, .take) :: sampleTurns x steps (.handle .go)

/-- Both nodes dial, and then handle what they were sent. -/
def sampleDialled : List (Bool × Turn) :=
  (false, .discover) :: sampleTurns false 4 .dial ++
    (true, .discover) :: sampleTurns true 4 .dial ++ sampleHandled false 6 ++
    sampleHandled true 6 ++ sampleHandled true 5 ++ sampleHandled false 5

/-- After the sample greeting both nodes hold the other one as active. -/
theorem handshake_agreement_sample :
    ∃ s, run sampleNodes.step (sampleNodes.start fun _ => .seeding) sampleDialled = some s ∧
      sampleNodes.AtRest s ∧ ∀ x, ∃ i p,
        (s x).session.peer (sampleNodes.addr !x) = some (.active i) ∧
        (s x).session.pipelines[i]? = some p ∧
        p.peer = ⟨Key.new (sampleNodes.host x).crypto (sampleNodes.host !x).id,
          sampleNodes.addr !x⟩ := by
  have hrun : ((run sampleNodes.step (sampleNodes.start fun _ => .seeding)
      sampleDialled).any fun s =>
      (∀ x, ((s x).dial = none ∨ (s x).dial = some .finished) ∧ (s x).handler = .finished ∧
        (s x).handled = (sampleNodes.wire s !x).length) ∧
      ∃ x, (sampleNodes.wire s x).any StandardMessage.isHandshake = true) = true := by
    decide +kernel
  obtain ⟨s, hs, hrest, hsent⟩ := exists_of_any hrun
  exact ⟨s, hs, hrest, handshake_agreement sampleNodes (fun _ => .seeding) sampleDialled s
    (by decide +kernel) hs hrest hsent⟩

/-- The node `[1]` handles the handshake of the other one while it is connecting, and dials on. -/
def sampleCrossed : List (Bool × Turn) :=
  (false, .discover) :: (false, .dial) :: (true, .discover) :: sampleTurns true 4 .dial ++
    sampleHandled false 5 ++ sampleTurns false 3 .dial ++ sampleHandled true 6 ++
    sampleHandled true 6 ++ sampleHandled false 5 ++ sampleHandled false 3

/-- It ends up with an active entry that has its own id, and the other one stays pending. -/
theorem crossed_handshakes_disagree :
    ∃ s, run sampleNodes.step (sampleNodes.start fun _ => .seeding) sampleCrossed = some s ∧
      sampleNodes.AtRest s ∧ (sampleNodes.wire s true).any StandardMessage.isHandshake = true ∧
      (s false).session.peer 2 = some (.active 0) ∧
      (s false).session.pipelines.map (fun p => p.peer.id) = [Key.new sampleCrypto [1]] ∧
      (s true).session.peer 1 = some (.pending [1] true) := by
  have hrun : ((run sampleNodes.step (sampleNodes.start fun _ => .seeding)
      sampleCrossed).any fun s =>
      (∀ x, ((s x).dial = none ∨ (s x).dial = some .finished) ∧ (s x).handler = .finished ∧
        (s x).handled = (sampleNodes.wire s !x).length) ∧
      (sampleNodes.wire s true).any StandardMessage.isHandshake = true ∧
      (s false).session.peer 2 = some (.active 0) ∧
      (s false).session.pipelines.map (fun p => p.peer.id) = [Key.new sampleCrypto [1]] ∧
      (s true).session.peer 1 = some (.pending [1] true)) = true := by
    decide +kernel
  obtain ⟨s, hs, hrest, hend⟩ := exists_of_any hrun
  exact ⟨s, hs, hrest, hend⟩

end Bqti.Session.Peers
