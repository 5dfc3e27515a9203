import Bqti.Core.Run
import Bqti.Pex.Router

/-!
# What a peer has been told

Beside the state of a node stand the messages it has produced for each peer, and those it has
produced since the peer last had no session. Folding these gives the view of the peer. The node
records as sent what it has, not what it sends, so that view and record part as soon as a message
is cut, or a whole swarm is told to a peer that was told of an address outside it.
-/

namespace Bqti.Pex

open Bqti.Core Bqti.Dht

/-- The view of a peer after a message. -/
def PexMessage.fold (view : Finset SocketAddr) (m : PexMessage) : Finset SocketAddr :=
  revise view m.dropped m.added

/-- What a peer knows from a list of messages. -/
def viewOf (messages : List PexMessage) : Finset SocketAddr := messages.foldl PexMessage.fold ∅

/-- One more message is folded into the view. -/
theorem viewOf_concat (messages : List PexMessage) (m : PexMessage) :
    viewOf (messages ++ [m]) = m.fold (viewOf messages) := by
  rw [viewOf, List.foldl_append]
  rfl

/-- A message that was produced, and the swarm at that moment. -/
structure Sent where
  message : PexMessage
  members : Finset SocketAddr
  deriving DecidableEq

/-- A node, the messages it has produced for each peer, and those it has produced since the peer
last had no session. -/
structure Gossip where
  router : PexRouter
  sent : SocketAddr → List Sent
  since : SocketAddr → List PexMessage

/-- A call to the node. -/
inductive Call
  | announce (infoHash : InfoHash) (addr : SocketAddr)
  | disconnect (infoHash : InfoHash) (addr : SocketAddr)
  | message (infoHash : InfoHash) (peer : SocketAddr)
  | delta (infoHash : InfoHash) (peer : SocketAddr)

/-- A call, with the orders in which it walks through the swarm and the record. -/
structure Label where
  call : Call
  listed : List SocketAddr
  recorded : List SocketAddr

namespace Gossip

/-- A node that has told nobody anything. -/
def start : Gossip := ⟨.create, fun _ => [], fun _ => []⟩

/-- Take note of what a call has produced. -/
def produce (g : Gossip) (peer : SocketAddr) (members : Finset SocketAddr) :
    PexRouter × Option PexMessage → Gossip
  | (router, none) => { g with router := router }
  | (router, some m) =>
      { router := router
        sent := Function.update g.sent peer (g.sent peer ++ [⟨m, members⟩])
        since := Function.update g.since peer (g.since peer ++ [m]) }

/-- One call. -/
def step (g : Gossip) (l : Label) : Option Gossip :=
  match l.call with
  | .announce infoHash addr => some { g with router := g.router.announce infoHash addr }
  | .disconnect infoHash addr => some { g with
      router := g.router.disconnect infoHash addr
      since := Function.update g.since addr [] }
  | .message infoHash peer =>
      if Lists l.listed (g.router.swarm infoHash) then
        some (g.produce peer (g.router.swarm infoHash)
          (g.router.message infoHash peer l.listed))
      else none
  | .delta infoHash peer =>
      if Lists l.listed (g.router.swarm infoHash) ∧ Lists l.recorded (g.router.lastSent peer) then
        some (g.produce peer (g.router.swarm infoHash)
          (g.router.delta infoHash peer l.listed l.recorded))
      else none

variable {g g' : Gossip} {h : InfoHash} {p q : SocketAddr} {l : Label}

/-- Producing a message keeps the swarms bounded. -/
theorem bounded_produce {members : Finset SocketAddr}
    {result : PexRouter × Option PexMessage} (hresult : result.1.Bounded) :
    (g.produce q members result).router.Bounded := by
  match result, hresult with
  | (router, none), hresult => exact hresult
  | (router, some m), hresult => exact hresult

/-- Every step keeps the swarms bounded. -/
theorem bounded_step (hg : g.router.Bounded) (hstep : step g l = some g') :
    g'.router.Bounded := by
  match l, hstep with
  | ⟨.announce h addr, listed, recorded⟩, hstep =>
    obtain rfl := Option.some.inj hstep
    exact hg.announce h addr
  | ⟨.disconnect h addr, listed, recorded⟩, hstep =>
    obtain rfl := Option.some.inj hstep
    exact hg.disconnect h addr
  | ⟨.message h q, listed, recorded⟩, hstep =>
    obtain ⟨-, he⟩ := Option.ite_none_right_eq_some.mp hstep
    obtain rfl := Option.some.inj he
    exact bounded_produce hg.message
  | ⟨.delta h q, listed, recorded⟩, hstep =>
    obtain ⟨-, he⟩ := Option.ite_none_right_eq_some.mp hstep
    obtain rfl := Option.some.inj he
    exact bounded_produce hg.delta

/-- No swarm ever has more members than it may have. -/
theorem bounded_of_run {labels : List Label} (hrun : run step start labels = some g) :
    g.router.Bounded := by
  have hstart : start.router.Bounded := fun _ => Nat.zero_le _
  have hkeep : ∀ (g : Gossip) l g', g.router.Bounded → step g l = some g' → g'.router.Bounded :=
    fun _ _ _ hg hstep => bounded_step hg hstep
  exact (run_invariant hkeep hstart hrun :)

/-! ## What a call means to a peer -/

@[simp] theorem produce_sent_self (g : Gossip) (p : SocketAddr) (members : Finset SocketAddr)
    (router : PexRouter) (m : PexMessage) :
    (g.produce p members (router, some m)).sent p = g.sent p ++ [⟨m, members⟩] :=
  Function.update_self ..

@[simp] theorem produce_since_self (g : Gossip) (p : SocketAddr) (members : Finset SocketAddr)
    (router : PexRouter) (m : PexMessage) :
    (g.produce p members (router, some m)).since p = g.since p ++ [m] := Function.update_self ..

/-- A call did nothing that concerns a peer. -/
structure Same (p : SocketAddr) (g g' : Gossip) : Prop where
  sessions : g'.router.sessions p = g.router.sessions p
  sent : g'.sent p = g.sent p
  since : g'.since p = g.since p

/-- What a call about another peer has produced. -/
theorem same_produce (hne : p ≠ q) {members : Finset SocketAddr}
    {result : PexRouter × Option PexMessage}
    (hsessions : result.1.sessions p = g.router.sessions p) :
    Same p g (g.produce q members result) := by
  match result, hsessions with
  | (router, none), hsessions => exact ⟨hsessions, rfl, rfl⟩
  | (router, some m), hsessions =>
    exact ⟨hsessions, Function.update_of_ne hne .., Function.update_of_ne hne ..⟩

/-- A call is about a peer. -/
def Concerns (p : SocketAddr) : Call → Prop
  | .announce _ _ => False
  | .disconnect _ addr => addr = p
  | .message _ peer => peer = p
  | .delta _ peer => peer = p

/-- Other calls leave the peer alone. -/
theorem same_of_not_concerns (hother : ¬ Concerns p l.call) (hstep : step g l = some g') :
    Same p g g' := by
  match l, hother, hstep with
  | ⟨.announce h addr, listed, recorded⟩, _, hstep =>
    obtain rfl := Option.some.inj hstep
    exact ⟨rfl, rfl, rfl⟩
  | ⟨.disconnect h addr, listed, recorded⟩, hother, hstep =>
    obtain rfl := Option.some.inj hstep
    have hne : p ≠ addr := fun he => hother he.symm
    exact ⟨PexRouter.disconnect_sessions_of_ne hne h, rfl, Function.update_of_ne hne ..⟩
  | ⟨.message h q, listed, recorded⟩, hother, hstep =>
    obtain ⟨-, he⟩ := Option.ite_none_right_eq_some.mp hstep
    obtain rfl := Option.some.inj he
    have hne : p ≠ q := fun he => hother he.symm
    exact same_produce hne (PexRouter.message_sessions_of_ne hne)
  | ⟨.delta h q, listed, recorded⟩, hother, hstep =>
    obtain ⟨-, he⟩ := Option.ite_none_right_eq_some.mp hstep
    obtain rfl := Option.some.inj he
    have hne : p ≠ q := fun he => hother he.symm
    exact same_produce hne (PexRouter.delta_sessions_of_ne hne)

/-- All that a call about a peer can do to it. -/
inductive Effect (p : SocketAddr) (g : Gossip) : Label → Gossip → Prop
  | gone {h : InfoHash} {listed recorded : List SocketAddr} {g' : Gossip}
      (session : g'.router.sessions p = none) (sent : g'.sent p = g.sent p)
      (since : g'.since p = []) : Effect p g ⟨.disconnect h p, listed, recorded⟩ g'
  | untold {h : InfoHash} {listed recorded : List SocketAddr} (empty : g.router.swarm h = ∅) :
      Effect p g ⟨.message h p, listed, recorded⟩ g
  | told {h : InfoHash} {listed recorded : List SocketAddr} (members : g.router.swarm h ≠ ∅)
      (lists : Lists listed (g.router.swarm h)) :
      Effect p g ⟨.message h p, listed, recorded⟩ (g.produce p (g.router.swarm h)
        (g.router.record p (g.router.swarm h), some ⟨h, listed.take maxPexDelta, []⟩))
  | absent {h : InfoHash} {listed recorded : List SocketAddr}
      (absent : g.router.swarms h = none) : Effect p g ⟨.delta h p, listed, recorded⟩ g
  | unchanged {h : InfoHash} {listed recorded : List SocketAddr} {current : Finset SocketAddr}
      (swarm : g.router.swarms h = some current) (same : current = g.router.lastSent p) :
      Effect p g ⟨.delta h p, listed, recorded⟩ { g with router := g.router.record p current }
  | changed {h : InfoHash} {listed recorded : List SocketAddr} {current : Finset SocketAddr}
      (swarm : g.router.swarms h = some current) (differs : current ≠ g.router.lastSent p)
      (lists : Lists listed current) (records : Lists recorded (g.router.lastSent p)) :
      Effect p g ⟨.delta h p, listed, recorded⟩ (g.produce p current (g.router.record p current,
        some (.cut h (listed.filter (· ∉ g.router.lastSent p))
          (recorded.filter (· ∉ current)))))

/-- What a call that concerns the peer does to its view and to the record of it. -/
theorem effect_of_concerns (hconcerns : Concerns p l.call) (hstep : step g l = some g') :
    Effect p g l g' := by
  match l, hconcerns, hstep with
  | ⟨.disconnect h addr, listed, recorded⟩, hconcerns, hstep =>
    obtain rfl : addr = p := hconcerns
    obtain rfl := Option.some.inj hstep
    exact .gone (PexRouter.disconnect_sessions_self ..) rfl (Function.update_self ..)
  | ⟨.message h q, listed, recorded⟩, hconcerns, hstep =>
    obtain rfl : q = p := hconcerns
    obtain ⟨hlists, he⟩ := Option.ite_none_right_eq_some.mp hstep
    obtain rfl := Option.some.inj he
    by_cases hempty : g.router.swarm h = ∅
    · rw [PexRouter.message_eq_none hempty]
      exact .untold hempty
    · rw [PexRouter.message_eq_some hempty]
      exact .told hempty hlists
  | ⟨.delta h q, listed, recorded⟩, hconcerns, hstep =>
    obtain rfl : q = p := hconcerns
    obtain ⟨⟨hlists, hrecords⟩, he⟩ := Option.ite_none_right_eq_some.mp hstep
    obtain rfl := Option.some.inj he
    cases hswarm : g.router.swarms h with
    | none =>
      rw [PexRouter.delta_eq_none hswarm]
      exact .absent hswarm
    | some current =>
      rw [PexRouter.swarm_eq hswarm] at hlists ⊢
      rw [PexRouter.delta_eq hswarm hlists hrecords]
      by_cases hsame : current = g.router.lastSent q
      · rw [if_pos hsame]
        exact .unchanged hswarm hsame
      · rw [if_neg hsame]
        exact .changed hswarm hsame hlists hrecords

/-- Every order of the swarm gives a step. -/
theorem step_message (hmembers : g.router.swarm h ≠ ∅) {listed : List SocketAddr}
    (hlisted : Lists listed (g.router.swarm h)) :
    step g ⟨.message h p, listed, []⟩ = some (g.produce p (g.router.swarm h)
      (g.router.record p (g.router.swarm h), some ⟨h, listed.take maxPexDelta, []⟩)) := by
  simp only [step, if_pos hlisted, PexRouter.message_eq_some hmembers]

/-- Every order of the swarm and of the record gives a step. -/
theorem step_delta {current : Finset SocketAddr} (hswarm : g.router.swarms h = some current)
    (hdiffers : current ≠ g.router.lastSent p) {listed recorded : List SocketAddr}
    (hlisted : Lists listed current) (hrecorded : Lists recorded (g.router.lastSent p)) :
    step g ⟨.delta h p, listed, recorded⟩ = some (g.produce p current (g.router.record p current,
      some (.cut h (listed.filter (· ∉ g.router.lastSent p))
        (recorded.filter (· ∉ current))))) := by
  have hstep : step g ⟨.delta h p, listed, recorded⟩ =
      some (g.produce p current (g.router.delta h p listed recorded)) := by
    simp only [step, PexRouter.swarm_eq hswarm, if_pos (And.intro hlisted hrecorded)]
  rw [hstep, PexRouter.delta_eq hswarm hlisted hrecorded, if_neg hdiffers]

/-- What calls about a peer keep, in whatever order the sets are walked through: a property that
speaks of the peer alone has to be looked at only where the peer is told something. -/
theorem forall_steps_iff {P : Gossip → Prop} {C : Call → Prop}
    (hsame : ∀ g', Same p g g' → P g') (hother : ∀ c, ¬ Concerns p c → C c)
    (hgone : ∀ g', g'.router.sessions p = none → g'.sent p = g.sent p → P g')
    (hdisconnect : ∀ h, C (.disconnect h p))
    (hmessage : ∀ h, (∀ a g', a.call = .message h p → step g a = some g' → P g') ↔
      C (.message h p))
    (hdelta : ∀ h, (∀ a g', a.call = .delta h p → step g a = some g' → P g') ↔ C (.delta h p))
    (c : Call) : (∀ a g', a.call = c → step g a = some g' → P g') ↔ C c := by
  by_cases hconcerns : Concerns p c
  · cases c with
    | announce h addr => exact hconcerns.elim
    | disconnect h addr =>
      have he : addr = p := hconcerns
      subst he
      refine iff_of_true (fun a g' ha hstep => ?_) (hdisconnect h)
      obtain ⟨_, listed, recorded⟩ := a
      obtain rfl : _ = Call.disconnect h addr := ha
      cases effect_of_concerns hconcerns hstep with
      | gone session sent since => exact hgone g' session sent
    | message h q =>
      obtain rfl : q = p := hconcerns
      exact hmessage h
    | delta h q =>
      obtain rfl : q = p := hconcerns
      exact hdelta h
  · refine iff_of_true (fun a g' ha hstep => ?_) (hother c hconcerns)
    exact hsame g' (same_of_not_concerns (ha ▸ hconcerns) hstep)

/-! ## The view and the record -/

/-- What a peer was told since it last had no session is what its session records. -/
def Tracks (p : SocketAddr) (g : Gossip) : Prop :=
  ∀ session, g.router.sessions p = some session → viewOf (g.since p) = session.lastSent

/-- A peer without a session was told nothing since. -/
def Fresh (p : SocketAddr) (g : Gossip) : Prop := g.router.sessions p = none → g.since p = []

/-- A message to a peer is not cut: a whole swarm is told only if it has all that is recorded, and
if it fits or is recorded already; a change is told only if it fits. -/
def Complete (p : SocketAddr) (g : Gossip) : Call → Prop
  | .message h peer => peer = p → g.router.swarm h ≠ ∅ →
      g.router.lastSent p ⊆ g.router.swarm h ∧
        ((g.router.swarm h).card ≤ maxPexDelta ∨ g.router.swarm h ⊆ g.router.lastSent p)
  | .delta h peer => peer = p → ∀ current, g.router.swarms h = some current →
      (current \ g.router.lastSent p).card + (g.router.lastSent p \ current).card ≤ maxPexDelta
  | _ => True

/-- What a peer has seen since it is fresh is what was last sent to it. -/
theorem Tracks.view_eq (htracks : Tracks p g) (hfresh : Fresh p g) :
    viewOf (g.since p) = g.router.lastSent p := by
  cases hsession : g.router.sessions p with
  | none =>
    rw [hfresh hsession, PexRouter.lastSent, hsession]
    rfl
  | some session =>
    rw [htracks session hsession, PexRouter.lastSent, hsession]
    rfl

/-- What is left alone keeps its view and its record. -/
theorem Same.tracks (hsame : Same p g g') (htracks : Tracks p g) : Tracks p g' := by
  intro session hsession
  rw [hsame.since]
  exact htracks session (hsame.sessions ▸ hsession)

/-- After a call that records a swarm. -/
theorem tracks_iff_of_session {current : Finset SocketAddr}
    (hsession : g.router.sessions p = some ⟨current⟩) :
    Tracks p g ↔ viewOf (g.since p) = current := by
  refine ⟨fun htracks => htracks _ hsession, fun hview session hsession' => ?_⟩
  obtain rfl := Option.some.inj (hsession.symm.trans hsession')
  exact hview

/-- After a message. -/
theorem tracks_produce_iff {members current : Finset SocketAddr} {m : PexMessage} :
    Tracks p (g.produce p members (g.router.record p current, some m)) ↔
      m.fold (viewOf (g.since p)) = current := by
  rw [tracks_iff_of_session (PexRouter.record_sessions_self g.router p current),
    produce_since_self, viewOf_concat]

/-- A peer with a session is fresh. -/
theorem fresh_of_session {session : PexSession} (hsession : g.router.sessions p = some session) :
    Fresh p g := by
  intro hnone
  rw [hsession] at hnone
  cases hnone

/-- A fresh peer stays so. -/
theorem Fresh.step (hfresh : Fresh p g) (hstep : Gossip.step g l = some g') : Fresh p g' := by
  by_cases hconcerns : Concerns p l.call
  · cases effect_of_concerns hconcerns hstep with
    | gone session sent since => exact fun _ => since
    | untold empty => exact hfresh
    | told members lists => exact fresh_of_session (PexRouter.record_sessions_self ..)
    | absent absent => exact hfresh
    | unchanged swarm same => exact fresh_of_session (PexRouter.record_sessions_self ..)
    | changed swarm differs lists records =>
      exact fresh_of_session (PexRouter.record_sessions_self ..)
  · have hsame := same_of_not_concerns hconcerns hstep
    intro hnone
    rw [hsame.since]
    exact hfresh (hsame.sessions ▸ hnone)

/-- A call that tells a whole swarm. -/
theorem tracks_message_iff (hview : viewOf (g.since p) = g.router.lastSent p) (htracks : Tracks p g)
    (h : InfoHash) :
    (∀ a g', a.call = .message h p → step g a = some g' → Tracks p g') ↔
      Complete p g (.message h p) := by
  constructor
  · intro hall _ hmembers
    refine forall_revise_take_eq_iff.mp fun listed hlisted => ?_
    have htold := tracks_produce_iff.mp (hall _ _ rfl (step_message hmembers hlisted))
    rwa [hview] at htold
  · rintro hcomplete ⟨_, listed, recorded⟩ g' rfl hstep
    have hconcerns : Concerns p (.message h p) := rfl
    cases effect_of_concerns hconcerns hstep with
    | untold empty => exact htracks
    | told members lists =>
      refine tracks_produce_iff.mpr ?_
      rw [hview]
      exact forall_revise_take_eq_iff.mpr (hcomplete rfl members) listed lists

/-- A call that tells a change. -/
theorem tracks_delta_iff (hview : viewOf (g.since p) = g.router.lastSent p) (htracks : Tracks p g)
    (h : InfoHash) :
    (∀ a g', a.call = .delta h p → step g a = some g' → Tracks p g') ↔
      Complete p g (.delta h p) := by
  constructor
  · intro hall _ current hswarm
    by_cases hsame : current = g.router.lastSent p
    · simp [hsame]
    · obtain ⟨listed, hlisted⟩ := exists_lists current
      obtain ⟨recorded, hrecorded⟩ := exists_lists (g.router.lastSent p)
      refine (revise_cut_eq_iff (hlisted.filter_notMem _) (hrecorded.filter_notMem _)).mp ?_
      have htold := tracks_produce_iff.mp
        (hall _ _ rfl (step_delta hswarm hsame hlisted hrecorded))
      rwa [hview] at htold
  · rintro hcomplete ⟨_, listed, recorded⟩ g' rfl hstep
    have hconcerns : Concerns p (.delta h p) := rfl
    cases effect_of_concerns hconcerns hstep with
    | absent absent => exact htracks
    | unchanged swarm same =>
      refine (tracks_iff_of_session (PexRouter.record_sessions_self ..)).mpr ?_
      rw [same]
      exact hview
    | changed swarm differs lists records =>
      refine tracks_produce_iff.mpr ?_
      rw [hview]
      exact (revise_cut_eq_iff (lists.filter_notMem _) (records.filter_notMem _)).mpr
        (hcomplete rfl _ swarm)

/-- A call that does not concern the peer is complete. -/
theorem complete_of_not_concerns {c : Call} (hother : ¬ Concerns p c) : Complete p g c := by
  cases c with
  | announce h addr => trivial
  | disconnect h addr => trivial
  | message h q => exact fun he => absurd he hother
  | delta h q => exact fun he => absurd he hother

/-- One call, in whatever order the sets are walked through. -/
theorem tracks_step_iff (hfresh : Fresh p g) (htracks : Tracks p g) (c : Call) :
    (∀ a g', a.call = c → step g a = some g' → Tracks p g') ↔ Complete p g c := by
  have hview := htracks.view_eq hfresh
  refine forall_steps_iff (fun _ hsame => hsame.tracks htracks)
    (fun _ hother => complete_of_not_concerns hother) (fun g' hgone _ session hsession => ?_)
    (fun _ => trivial) (tracks_message_iff hview htracks) (tracks_delta_iff hview htracks) c
  rw [hgone] at hsession
  cases hsession

/-- For every sequence of calls: in every state that it can reach, what a peer was told since it
last had no session is what its session records, precisely when no message to the peer is cut. -/
theorem tracks_iff_complete (p : SocketAddr) (calls : List Call) :
    (∀ labels g, labels.map Label.call <+: calls → run step start labels = some g →
      Tracks p g) ↔
    ∀ labels c g, labels.map Label.call ++ [c] <+: calls → run step start labels = some g →
      Complete p g c := by
  refine forall_runs_iff (fun _ _ _ hfresh hstep => hfresh.step hstep)
    (fun _ c hfresh htracks => tracks_step_iff hfresh htracks c) (fun _ => rfl) ?_ calls
  intro session hsession
  cases hsession

end Gossip

/-- A torrent. -/
def sampleHash : InfoHash := ⟨Vector.replicate 32 0, []⟩

/-- The members of its swarm. -/
def sampleMember (k : Nat) : SocketAddr := ⟨.ofBytes 10 0 0 1, UInt16.ofNat k⟩

/-- A peer that is told of the swarm. -/
def samplePeer : SocketAddr := ⟨.ofBytes 10 0 0 2, 6881⟩

/-- A swarm of fifty-one members is told. -/
def sampleCut : List Label :=
  ((List.range 51).map fun k => ⟨.announce sampleHash (sampleMember k), [], []⟩) ++
    [⟨.message sampleHash samplePeer, (List.range 51).map sampleMember, []⟩]

/-- The last member is recorded as sent and was not sent. -/
theorem not_tracks_sampleCut : ∃ g, run Gossip.step .start sampleCut = some g ∧
    ¬ Gossip.Tracks samplePeer g := by
  have hrun : ((run Gossip.step .start sampleCut).any fun g =>
      decide (sampleMember 50 ∈ g.router.lastSent samplePeer ∧
        sampleMember 50 ∉ viewOf (g.since samplePeer))) = true := by decide +kernel
  obtain ⟨g, hg, hrecorded, hunsent⟩ := exists_of_any hrun
  refine ⟨g, hg, fun htracks => ?_⟩
  cases hsession : g.router.sessions samplePeer with
  | none =>
    rw [PexRouter.lastSent, hsession] at hrecorded
    cases hrecorded
  | some session =>
    rw [PexRouter.lastSent, hsession] at hrecorded
    rw [htracks session hsession] at hunsent
    exact hunsent hrecorded

end Bqti.Pex
