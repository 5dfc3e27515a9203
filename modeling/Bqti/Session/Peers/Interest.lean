import Bqti.Session.Peers.Step

/-!
# A bitfield and an interested message

A peer sends its bitfield and then that it is interested. The two packets are handled by two
tasks, and nothing makes the second one wait for the first. The interest is lost exactly when
its handler looks for the pipeline before the handler of the bitfield has opened it, or when
neither packet finds its session.
-/

namespace Bqti.Session.Peers

open Bqti.Core Bqti.Dht Bqti.Torrent
open Bqti.Session.Routing (StandardMessage SessionManager)

variable {D P S A : Type*} [DecidableEq A] {host : Host D P S} {a : A} {bits : Bytes}

/-- A step of one of the two tasks: the second one if `second`. -/
def packetStep (host : Host D P S) (s : System D A) (second : Bool) : Option (System D A) :=
  step host s (.task (if second then 1 else 0) .go)

/-- The two tasks at the start. -/
def packetTasks (a : A) (bits : Bytes) : List (Task A) :=
  [⟨a, .packet (.bitfield bits)⟩, ⟨a, .packet .interested⟩]

/-- The handler of the interest looks for the pipeline only when there is one. -/
def asksInTime (s : System D A) : Bool → Bool
  | true =>
      match s.tasks[(1 : Nat)]? with
      | some ⟨a, .interestedLookup⟩ => (s.session.getPipeline a).isSome
      | _ => true
  | false => true

/-- Both packets have been handled. -/
def System.handled (s : System D A) : Prop := ∀ t ∈ s.tasks, t.pc = .finished

/-- The peer is active, is not choked, and an unchoke has been sent since the given history. -/
def TorrentSession.Unchoked (s : TorrentSession D A) (a : A) (past : List Event) : Prop :=
  ∃ i p events, s.peer a = some (.active i) ∧ s.pipelines[i]? = some p ∧ p.amChoking = false ∧
    s.history a = events ++ past ∧ .sent .unchoke ∈ events

/-! ## Points of the two handlers -/

/-- The handler of the bitfield before it opens the pipeline. -/
inductive BeforeOpening (bits : Bytes) : Pc A → Prop
  | packet : BeforeOpening bits (.packet (.bitfield bits))
  | outbound : BeforeOpening bits (.bitfieldOutbound bits)
  | pending (selfInit : Bool) : BeforeOpening bits (.bitfieldPending bits selfInit)
  | insert (selfInit : Bool) (peerId : Bytes) :
      BeforeOpening bits (.bitfieldInsert bits selfInit peerId)

/-- The handler of the bitfield afterwards. -/
inductive AfterOpening : Pc A → Prop
  | bits : AfterOpening .bitfieldBits
  | sending (message : StandardMessage) : AfterOpening (.sending message none true)
  | mode : AfterOpening .bitfieldMode
  | finished : AfterOpening .finished

/-- The handler of the interest before it has looked for the pipeline. -/
inductive Asking : Pc A → Prop
  | packet : Asking (.packet .interested)
  | handle : Asking (.mode .interested)
  | mode : Asking .interestedMode
  | lookup : Asking .interestedLookup

/-- The handler of the interest after it has found the pipeline. -/
inductive Serving (s : TorrentSession D A) (a : A) (past : List Event) (i : Nat) : Pc A → Prop
  | peer : Serving s a past i (.interestedPeer i)
  | unchoke : Serving s a past i (.interestedUnchoke i)
  | sending {p : Pipeline D A} (hp : s.pipelines[i]? = some p) (h : p.amChoking = false) :
      Serving s a past i (.sending .unchoke (some i) false)
  | finished (h : s.Unchoked a past) : Serving s a past i .finished

/-- What neither handler changes. -/
structure Receiving (host : Host D P S) (s : TorrentSession D A) (a : A) (past : List Event) :
    Prop where
  mode : s.mode = .seeding
  routed : s.manager.byPeer a = some host.session
  history : ∃ events, s.history a = events ++ past

variable {u u' : TorrentSession D A} {pc pc' : Pc A} {past : List Event} {i : Nat}

/-- Before it opens a connection, the handler of the bit field goes on towards it. -/
theorem beforeOpening_act (h : BeforeOpening bits pc) (hr : Receiving host u a past)
    {peerId : Bytes} {weInitiated : Bool} (hpeer : u.peer a = some (.pending peerId weInitiated))
    (hact : act host u a pc .go = some (u', pc')) :
    (u' = u ∧ BeforeOpening bits pc') ∨
      ∃ id, u' = u.insertPipeline host a id bits ∧ AfterOpening pc' := by
  cases h with
  | packet =>
    simp only [act, actPacket, Routing.dispatch, hr.routed, if_true] at hact
    cases hact
    exact Or.inl ⟨rfl, .outbound⟩
  | outbound =>
    cases hact
    exact Or.inl ⟨rfl, .pending _⟩
  | pending selfInit =>
    simp only [act, actBitfield, TorrentSession.getPendingPeer, hpeer] at hact
    cases hact
    exact Or.inl ⟨rfl, .insert _ _⟩
  | insert selfInit id =>
    simp only [act, actBitfield] at hact
    split at hact
    · contradiction
    · cases hact
      refine Or.inr ⟨id, rfl, ?_⟩
      cases selfInit with
      | true => exact .mode
      | false => exact .bits

/-- After it has opened the connection, the handler sends at most. -/
theorem afterOpening_act (h : AfterOpening pc) (hr : Receiving host u a past)
    (hact : act host u a pc .go = some (u', pc')) :
    AfterOpening pc' ∧ (u' = u ∨ ∃ message, u' = u.send a message) := by
  cases h with
  | bits =>
    cases hact
    exact ⟨.sending _, Or.inl rfl⟩
  | sending message =>
    cases hact
    exact ⟨.mode, Or.inr ⟨message, rfl⟩⟩
  | mode =>
    simp only [act, actBitfield, hr.mode] at hact
    cases hact
    exact ⟨.finished, Or.inl rfl⟩
  | finished => contradiction

/-- The handler of the interest changes nothing until it has found the pipeline. -/
theorem asking_act (h : Asking pc) (hr : Receiving host u a past)
    (hact : act host u a pc .go = some (u', pc')) :
    u' = u ∧ (Asking pc' ∧ pc ≠ .interestedLookup ∨ pc = .interestedLookup ∧
      ((∃ i, u.peer a = some (.active i) ∧ pc' = .interestedPeer i) ∨
        u.getPipeline a = none ∧ pc' = .finished)) := by
  cases h with
  | packet =>
    simp only [act, actPacket, Routing.dispatch, hr.routed, if_true] at hact
    cases hact
    exact ⟨rfl, Or.inl ⟨.handle, by simp⟩⟩
  | handle =>
    simp only [act, actMode, hr.mode] at hact
    cases hact
    exact ⟨rfl, Or.inl ⟨.mode, by simp⟩⟩
  | mode =>
    simp only [act, actMode, hr.mode, if_true] at hact
    cases hact
    exact ⟨rfl, Or.inl ⟨.lookup, by simp⟩⟩
  | lookup =>
    simp only [act, actMode, withPipeline] at hact
    split at hact
    · rename_i i hi
      cases hact
      exact ⟨rfl, Or.inr ⟨rfl, Or.inl ⟨i, TorrentSession.getPipeline_eq_some.mp hi, rfl⟩⟩⟩
    · cases hact
      exact ⟨rfl, Or.inr ⟨rfl, Or.inr ⟨‹_›, rfl⟩⟩⟩

/-- Sending keeps what neither handler changes. -/
theorem Receiving.send (h : Receiving host u a past) (message : StandardMessage) :
    Receiving host (u.send a message) a past where
  mode := h.mode
  routed := h.routed
  history := by
    obtain ⟨events, he⟩ := h.history
    exact ⟨.sent message :: events, by simp [he]⟩

omit [DecidableEq A] in
/-- Changing a pipeline keeps what neither handler changes. -/
theorem Receiving.setPipeline (h : Receiving host u a past) (i : Nat) (p : Pipeline D A) :
    Receiving host (u.setPipeline i p) a past := ⟨h.mode, h.routed, h.history⟩

/-- A new pipeline keeps what neither handler changes. -/
theorem Receiving.insertPipeline (h : Receiving host u a past) (peerId bits : Bytes) :
    Receiving host (u.insertPipeline host a peerId bits) a past where
  mode := h.mode
  routed := h.routed
  history := by
    obtain ⟨events, he⟩ := h.history
    exact ⟨.opened :: events, by simp [he]⟩

/-- An unchoke that has been sent stays sent. -/
theorem TorrentSession.Unchoked.send (h : u.Unchoked a past) (message : StandardMessage) :
    (u.send a message).Unchoked a past := by
  obtain ⟨i, p, events, hpeer, hp, hflag, hhistory, hmem⟩ := h
  exact ⟨i, p, .sent message :: events, hpeer, hp, hflag, by simp [hhistory],
    List.mem_cons_of_mem _ hmem⟩

/-- The handler of the bitfield does not disturb that of the interest any more. -/
theorem Serving.send (h : Serving u a past i pc) (message : StandardMessage) :
    Serving (u.send a message) a past i pc := by
  cases h with
  | peer => exact .peer
  | unchoke => exact .unchoke
  | sending hp hflag => exact .sending hp hflag
  | finished h => exact .finished (h.send message)

/-- The handler that has found the pipeline goes on serving it. -/
theorem serving_act (h : Serving u a past i pc) (hr : Receiving host u a past)
    (hpeer : u.peer a = some (.active i)) (hact : act host u a pc .go = some (u', pc')) :
    Serving u' a past i pc' ∧ Receiving host u' a past ∧ u'.peer a = some (.active i) := by
  cases h with
  | peer =>
    obtain ⟨p, hp, rfl, rfl⟩ := update_cases hact
    exact ⟨.unchoke, hr.setPipeline i _, hpeer⟩
  | unchoke =>
    obtain ⟨p, hp, rfl, rfl⟩ := update_cases hact
    have hlt := (List.getElem?_eq_some_iff.mp hp).1
    refine ⟨.sending (p := p.unchoke) ?_ rfl, hr.setPipeline i _, hpeer⟩
    exact List.getElem?_set_self hlt
  | sending hp hflag =>
    cases hact
    refine ⟨.finished ?_, hr.send .unchoke, hpeer⟩
    obtain ⟨events, he⟩ := hr.history
    exact ⟨i, _, .sent .unchoke :: events, hpeer, hp, hflag, by simp [he], List.mem_cons_self⟩
  | finished => contradiction

/-! ## Schedules -/

/-- The interest is not lost yet: it has not been asked for the pipeline, or found it. -/
inductive Good (host : Host D P S) (a : A) (bits : Bytes) (past : List Event) (s : System D A) :
    Prop
  | before {pc pc' : Pc A} {peerId : Bytes} {weInitiated : Bool}
      (htasks : s.tasks = [⟨a, pc⟩, ⟨a, pc'⟩]) (hr : Receiving host s.session a past)
      (hpeer : s.session.peer a = some (.pending peerId weInitiated))
      (hfirst : BeforeOpening bits pc) (hsecond : Asking pc')
  | after {pc pc' : Pc A} {i : Nat} (htasks : s.tasks = [⟨a, pc⟩, ⟨a, pc'⟩])
      (hr : Receiving host s.session a past) (hpeer : s.session.peer a = some (.active i))
      (hfirst : AfterOpening pc) (hsecond : Asking pc' ∨ Serving s.session a past i pc')

/-- The interest is lost: its handler has ended, and the peer is or will be choked. -/
inductive Bad (host : Host D P S) (a : A) (bits : Bytes) (past : List Event) (s : System D A) :
    Prop
  | before {pc : Pc A} {peerId : Bytes} {weInitiated : Bool}
      (htasks : s.tasks = [⟨a, pc⟩, ⟨a, .finished⟩]) (hr : Receiving host s.session a past)
      (hpeer : s.session.peer a = some (.pending peerId weInitiated))
      (hfirst : BeforeOpening bits pc)
  | after {pc : Pc A} {i : Nat} {p : Pipeline D A} (htasks : s.tasks = [⟨a, pc⟩, ⟨a, .finished⟩])
      (hr : Receiving host s.session a past) (hpeer : s.session.peer a = some (.active i))
      (hp : s.session.pipelines[i]? = some p) (hchoking : p.amChoking = true)
      (hfirst : AfterOpening pc)

variable {s s' : System D A}

/-- A step of the schedule is a step of one of the two tasks. -/
theorem packetStep_cases {second : Bool} (htasks : s.tasks = [⟨a, pc⟩, ⟨a, pc'⟩])
    (h : packetStep host s second = some s') :
    (second = false ∧ ∃ u q, act host s.session a pc .go = some (u, q) ∧
      s' = ⟨u, [⟨a, q⟩, ⟨a, pc'⟩]⟩) ∨
    (second = true ∧ ∃ u q, act host s.session a pc' .go = some (u, q) ∧
      s' = ⟨u, [⟨a, pc⟩, ⟨a, q⟩]⟩) := by
  obtain ⟨u, tasks⟩ := s
  subst htasks
  cases second with
  | false =>
    obtain ⟨⟨v, q⟩, hact, rfl⟩ := Option.map_eq_some_iff.mp h
    exact Or.inl ⟨rfl, v, q, hact, rfl⟩
  | true =>
    obtain ⟨⟨v, q⟩, hact, rfl⟩ := Option.map_eq_some_iff.mp h
    exact Or.inr ⟨rfl, v, q, hact, rfl⟩

/-- What the condition says about the second task. -/
theorem asksInTime_iff (htasks : s.tasks = [⟨a, pc⟩, ⟨a, pc'⟩]) :
    asksInTime s true = true ↔
      (pc' = .interestedLookup → (s.session.getPipeline a).isSome = true) := by
  rw [asksInTime, htasks]
  cases pc' <;> simp

/-- A step keeps the interest exactly when it meets the condition. -/
theorem good_step {second : Bool} (hs : Good host a bits past s)
    (h : packetStep host s second = some s') :
    asksInTime s second = true ∧ Good host a bits past s' ∨
      ¬ asksInTime s second = true ∧ Bad host a bits past s' := by
  cases hs with
  | before htasks hr hpeer hfirst hsecond =>
    rcases packetStep_cases htasks h with ⟨rfl, u, q, hact, rfl⟩ | ⟨rfl, u, q, hact, rfl⟩
    · refine Or.inl ⟨rfl, ?_⟩
      rcases beforeOpening_act hfirst hr hpeer hact with ⟨rfl, hnext⟩ | ⟨id, rfl, hnext⟩
      · exact .before rfl hr hpeer hnext hsecond
      · exact .after rfl (hr.insertPipeline id bits) (TorrentSession.insertPipeline_peer_self ..)
          hnext (Or.inl hsecond)
    · obtain ⟨rfl, ⟨hnext, hne⟩ | ⟨rfl, ⟨i, hactive, _⟩ | ⟨hnone, rfl⟩⟩⟩ :=
        asking_act hsecond hr hact
      · exact Or.inl ⟨(asksInTime_iff htasks).mpr fun he => absurd he hne,
          .before rfl hr hpeer hfirst hnext⟩
      · cases hpeer.symm.trans hactive
      · refine Or.inr ⟨fun hc => ?_, .before rfl hr hpeer hfirst⟩
        have hsome := (asksInTime_iff htasks).mp hc rfl
        rw [hnone] at hsome
        contradiction
  | after htasks hr hpeer hfirst hsecond =>
    refine Or.inl ?_
    rcases packetStep_cases htasks h with ⟨rfl, u, q, hact, rfl⟩ | ⟨rfl, u, q, hact, rfl⟩
    · refine ⟨rfl, ?_⟩
      obtain ⟨hnext, rfl | ⟨message, rfl⟩⟩ := afterOpening_act hfirst hr hact
      · exact .after rfl hr hpeer hnext hsecond
      · exact .after rfl (hr.send message) hpeer hnext (hsecond.imp_right fun h => h.send message)
    · have hactive := TorrentSession.getPipeline_eq_some.mpr hpeer
      refine ⟨(asksInTime_iff htasks).mpr fun _ => by rw [hactive]; rfl, ?_⟩
      rcases hsecond with hasking | hserving
      · obtain ⟨rfl, ⟨hnext, _⟩ | ⟨_, ⟨j, hj, rfl⟩ | ⟨hnone, _⟩⟩⟩ := asking_act hasking hr hact
        · exact .after rfl hr hpeer hfirst (Or.inl hnext)
        · cases hpeer.symm.trans hj
          exact .after rfl hr hpeer hfirst (Or.inr .peer)
        · rw [hactive] at hnone
          contradiction
      · obtain ⟨hnext, hr', hpeer'⟩ := serving_act hserving hr hpeer hact
        exact .after rfl hr' hpeer' hfirst (Or.inr hnext)

/-- A lost interest stays lost. -/
theorem bad_step {second : Bool} (hs : Bad host a bits past s)
    (h : packetStep host s second = some s') : Bad host a bits past s' := by
  cases hs with
  | before htasks hr hpeer hfirst =>
    rcases packetStep_cases htasks h with ⟨rfl, u, q, hact, rfl⟩ | ⟨rfl, u, q, hact, rfl⟩
    · rcases beforeOpening_act hfirst hr hpeer hact with ⟨rfl, hnext⟩ | ⟨id, rfl, hnext⟩
      · exact .before rfl hr hpeer hnext
      · exact .after rfl (hr.insertPipeline id bits) (TorrentSession.insertPipeline_peer_self ..)
          List.getElem?_concat_length rfl hnext
    · contradiction
  | after htasks hr hpeer hp hchoking hfirst =>
    rcases packetStep_cases htasks h with ⟨rfl, u, q, hact, rfl⟩ | ⟨rfl, u, q, hact, rfl⟩
    · obtain ⟨hnext, rfl | ⟨message, rfl⟩⟩ := afterOpening_act hfirst hr hact
      · exact .after rfl hr hpeer hp hchoking hnext
      · exact .after rfl (hr.send message) hpeer hp hchoking hnext
    · contradiction

/-- Neither packet finds the session, and the peer stays pending. -/
structure Dropped (host : Host D P S) (a : A) (bits : Bytes) (s : System D A) : Prop where
  tasks : ∃ pc pc', s.tasks = [⟨a, pc⟩, ⟨a, pc'⟩] ∧
    (pc = .packet (.bitfield bits) ∨ pc = .finished) ∧ (pc' = .packet .interested ∨ pc' = .finished)
  unrouted : s.session.manager.byPeer a ≠ some host.session
  pending : ∃ peerId weInitiated, s.session.peer a = some (.pending peerId weInitiated)

/-- Two packets that find no session find none later. -/
theorem dropped_step {second : Bool} (hs : Dropped host a bits s)
    (h : packetStep host s second = some s') : Dropped host a bits s' := by
  obtain ⟨pc, pc', htasks, hfirst, hsecond⟩ := hs.tasks
  rcases packetStep_cases htasks h with ⟨rfl, u, q, hact, rfl⟩ | ⟨rfl, u, q, hact, rfl⟩
  · rcases hfirst with rfl | rfl
    · simp only [act, actPacket, Routing.dispatch, hs.unrouted, if_false] at hact
      cases hact
      exact ⟨⟨_, _, rfl, Or.inr rfl, hsecond⟩, hs.unrouted, hs.pending⟩
    · contradiction
  · rcases hsecond with rfl | rfl
    · simp only [act, actPacket, Routing.dispatch, hs.unrouted, if_false] at hact
      cases hact
      exact ⟨⟨_, _, rfl, hfirst, Or.inr rfl⟩, hs.unrouted, hs.pending⟩
    · contradiction

/-- A handled schedule that stayed good has unchoked the peer. -/
theorem Good.unchoked (h : Good host a bits past s) (hdone : s.handled) :
    s.session.Unchoked a past := by
  have hend : ∀ {pc pc' : Pc A}, s.tasks = [⟨a, pc⟩, ⟨a, pc'⟩] → pc' = .finished := by
    intro pc pc' htasks
    exact hdone ⟨a, pc'⟩ (by rw [htasks]; simp)
  cases h with
  | before htasks hr hpeer hfirst hsecond =>
    cases hend htasks
    cases hsecond
  | after htasks hr hpeer hfirst hsecond =>
    cases hend htasks
    rcases hsecond with hasking | hserving
    · cases hasking
    · cases hserving with
      | finished h => exact h

/-- A lost interest leaves the peer choked. -/
theorem Bad.not_unchoked (h : Bad host a bits past s) : ¬ s.session.Unchoked a past := by
  rintro ⟨i, p, events, hactive, hp, hflag, _, _⟩
  cases h with
  | before htasks hr hpeer hfirst => cases hpeer.symm.trans hactive
  | after htasks hr hpeer hp' hchoking hfirst =>
    cases hpeer.symm.trans hactive
    cases hp'.symm.trans hp
    rw [hchoking] at hflag
    contradiction

/-- For every schedule of the two tasks that handles both packets: the peer is active and
unchoked, and an unchoke was sent, exactly when the packets find the session and the second
handler looks for the pipeline after the first has opened it. -/
theorem interest_served_iff (host : Host D P S) (a : A) (bits peerId : Bytes) (weInitiated : Bool)
    (start s : System D A) (schedule : List Bool) (htasks : start.tasks = packetTasks a bits)
    (hmode : start.session.mode = .seeding)
    (hpeer : start.session.peer a = some (.pending peerId weInitiated))
    (h : run (packetStep host) start schedule = some s) (hdone : s.handled) :
    s.session.Unchoked a (start.session.history a) ↔
      start.session.manager.byPeer a = some host.session ∧
        Along (packetStep host) (fun s second => asksInTime s second = true) start schedule := by
  by_cases hrouted : start.session.manager.byPeer a = some host.session
  · have hgood : Good host a bits (start.session.history a) start :=
      .before htasks ⟨hmode, hrouted, [], rfl⟩ hpeer .packet .packet
    rcases along_or_trapped (fun _ _ _ => good_step) (fun _ _ _ => bad_step) hgood h with
      ⟨halong, hend⟩ | ⟨halong, hend⟩
    · exact iff_of_true (hend.unchoked hdone) ⟨hrouted, halong⟩
    · exact iff_of_false hend.not_unchoked fun h => halong h.2
  · have hdropped : Dropped host a bits start :=
      ⟨⟨_, _, htasks, Or.inl rfl, Or.inl rfl⟩, hrouted, peerId, weInitiated, hpeer⟩
    have hend := run_invariant (fun _ _ _ => dropped_step) hdropped h
    obtain ⟨id, dir, hpending⟩ := hend.pending
    refine iff_of_false ?_ fun h => hrouted h.1
    rintro ⟨i, _, _, hactive, _⟩
    cases hpending.symm.trans hactive

/-- A seeding session that holds the peer `[2]` at address 7 as pending, with its two packets. -/
def sampleReceiving : System (List Bytes) Nat where
  session :=
    { (sampleSystem .seeding).session.insertPending 7 [2] false with
      manager :=
        (Routing.dispatch sampleManager (.handshake sampleHost.infoHash.asRef [2]) 7).1 }
  tasks := packetTasks 7 [0x80]

/-- In the sample run both packets are handled, and the peer is unchoked. -/
theorem interest_served_iff_sample :
    ∃ s, run (packetStep sampleHost) sampleReceiving
        (List.replicate 7 false ++ List.replicate 7 true) = some s ∧ s.handled ∧
      (s.session.Unchoked 7 (sampleReceiving.session.history 7) ↔
        sampleReceiving.session.manager.byPeer 7 = some sampleHost.session ∧
          Along (packetStep sampleHost) (fun s second => asksInTime s second = true)
            sampleReceiving (List.replicate 7 false ++ List.replicate 7 true)) := by
  have hrun : ((run (packetStep sampleHost) sampleReceiving
      (List.replicate 7 false ++ List.replicate 7 true)).any fun s =>
        ∀ t ∈ s.tasks, t.pc = .finished) = true := by
    decide +kernel
  obtain ⟨s, hs, hdone⟩ := exists_of_any hrun
  exact ⟨s, hs, hdone, interest_served_iff sampleHost 7 [0x80] [2] false sampleReceiving s
    (List.replicate 7 false ++ List.replicate 7 true) rfl rfl (by decide +kernel) hs hdone⟩

/-- The handler of the interest runs first: it finds no pipeline and ends, and the peer becomes
active and stays choked. -/
theorem interest_lost :
    ∃ s, run (packetStep sampleHost) sampleReceiving
        (List.replicate 4 true ++ List.replicate 7 false) = some s ∧ s.handled ∧
      sampleReceiving.session.manager.byPeer 7 = some sampleHost.session ∧
      ¬ s.session.Unchoked 7 (sampleReceiving.session.history 7) := by
  have hrun : ((run (packetStep sampleHost) sampleReceiving
      (List.replicate 4 true ++ List.replicate 7 false)).any fun s =>
        (∀ t ∈ s.tasks, t.pc = .finished) ∧ s.session.peer 7 = some (.active 0) ∧
          s.session.pipelines.map Pipeline.amChoking = [true]) = true := by
    decide +kernel
  obtain ⟨s, hs, hdone, hpeer, hflags⟩ := exists_of_any hrun
  refine ⟨s, hs, hdone, rfl, ?_⟩
  rintro ⟨i, p, events, hactive, hi, hflag, _, _⟩
  cases hpeer.symm.trans hactive
  have hfirst : (s.session.pipelines.map Pipeline.amChoking)[0]? = some p.amChoking := by
    rw [List.getElem?_map, hi, Option.map_some]
  rw [hflags, hflag] at hfirst
  simp at hfirst

end Bqti.Session.Peers
