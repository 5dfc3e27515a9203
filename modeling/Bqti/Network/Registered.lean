import Bqti.Network.Connections

/-!
# Dead connections in the map

The task of a connection starts before the connection is put into the map. If the task ends and
its handler runs in between, the handler finds nothing to take out, and the connection is put
into the map afterwards and stays there. As long as every connection that is put into the map has
its handler still before it, no dead connection stays.
-/

namespace Bqti.Network

open Bqti.Core Bqti.Dht

namespace Manager

variable {m m' : Manager} {a : Label}

/-- No handler is at work or waits to be. -/
def Quiet (m : Manager) : Prop :=
  ∀ c ∈ m.conns, c.phase ≠ .leaving ∧ c.phase ≠ .notifying

instance (m : Manager) : Decidable m.Quiet := inferInstanceAs (Decidable (∀ c ∈ m.conns, _))

/-- Every connection of the map has its task still running. -/
def AllRunning (m : Manager) : Prop :=
  ∀ addr k, m.connections addr = some k → ∃ c, m.conns[k]? = some c ∧ c.phase = .running

/-- A connection is put into the map: the local address is known, and there is no connection yet
or this side is the greater one. -/
def Registers (m : Manager) (peerAddr : SocketAddr) (localAddr : Option SocketAddr) : Prop :=
  ∃ addr, localAddr = some addr ∧ (m.connections peerAddr = none ∨ ¬ addr < peerAddr)

/-- A connection that is put into the map has its handler still before it. -/
def AppendsAlive (m : Manager) : Label → Prop
  | .append k localAddr => ∀ c, m.conns[k]? = some c → m.Registers c.peer localAddr →
      c.phase = .running ∨ c.phase = .leaving
  | _ => True

/-- Every connection of the map stands at its own address and has its handler still before it. -/
def Attended (m : Manager) : Prop :=
  ∀ addr k, m.connections addr = some k → ∃ c, m.conns[k]? = some c ∧ c.peer = addr ∧
    (c.phase = .running ∨ c.phase = .leaving)

/-- If no handler is left, the tasks run. -/
theorem Attended.allRunning (h : Attended m) (hquiet : m.Quiet) : m.AllRunning := by
  intro addr k hk
  obtain ⟨c, hc, -, hphase⟩ := h addr k hk
  refine ⟨c, hc, hphase.resolve_right (hquiet c (List.mem_of_getElem? hc)).1⟩

/-- Changing a connection other than by running its handler. -/
theorem Attended.modify (h : Attended m) {k : Nat} {f : Connection → Connection}
    (hpeer : ∀ c, (f c).peer = c.peer)
    (hphase : ∀ c, m.conns[k]? = some c → m.connections c.peer = some k →
      (f c).phase = .running ∨ (f c).phase = .leaving) : Attended (m.modify k f) := by
  intro addr j hj
  obtain ⟨c, hc, rfl, hphase'⟩ := h addr j hj
  rw [conns_modify, hc, Option.map_some]
  by_cases hkj : k = j
  · subst hkj
    rw [if_pos rfl]
    exact ⟨f c, rfl, hpeer c, hphase c hc hj⟩
  · rw [if_neg hkj]
    exact ⟨c, rfl, rfl, hphase'⟩

/-- Closing a connection keeps all entries attended. -/
theorem Attended.close (h : Attended m) (k : Nat) : Attended (m.close k) := by
  refine h.modify (fun _ => rfl) fun c hc hentry => ?_
  obtain ⟨d, hd, -, hphase⟩ := h _ _ hentry
  obtain rfl := Option.some.inj (hc.symm.trans hd)
  exact hphase

/-- Removing an entry keeps the others attended. -/
theorem Attended.remove (h : Attended m) (addr : SocketAddr) : Attended (m.remove addr) := by
  intro addr' k hk
  by_cases haddr : addr' = addr
  · rw [haddr, remove_connections_self] at hk
    cases hk
  · rw [remove_connections_of_ne haddr] at hk
    exact h addr' k hk

/-- A running or leaving connection attends its entry. -/
theorem Attended.insert (h : Attended m) {k : Nat} {c : Connection} (hk : m.conns[k]? = some c)
    (hphase : c.phase = .running ∨ c.phase = .leaving) : Attended (m.insert c.peer k) := by
  intro addr j hj
  by_cases haddr : addr = c.peer
  · subst haddr
    rw [insert_connections_self] at hj
    exact ⟨c, Option.some.inj hj ▸ hk, rfl, hphase⟩
  · rw [insert_connections_of_ne haddr] at hj
    exact h addr j hj

/-- Appending a connection that has its handler still before it. -/
theorem Attended.appendConnection (h : Attended m) {k : Nat} {c : Connection}
    (hk : m.conns[k]? = some c) {localAddr : Option SocketAddr}
    (halive : m.Registers c.peer localAddr → c.phase = .running ∨ c.phase = .leaving) :
    Attended (m.appendConnection k c.peer localAddr) := by
  cases localAddr with
  | none => exact h
  | some localAddr =>
    simp only [Manager.appendConnection]
    split
    · rename_i hentry
      exact h.insert hk (halive ⟨localAddr, rfl, Or.inl hentry⟩)
    · split
      · exact h.close k
      · rename_i hlt
        exact (h.insert hk (halive ⟨localAddr, rfl, Or.inr hlt⟩)).close _

/-- A handler that finds another entry leaves nothing of its connection in the map. -/
theorem Attended.stale (h : Attended m) {k : Nat} {c : Connection} (hk : m.conns[k]? = some c)
    (hother : m.entryId c.peer ≠ some c.id) (phase : Phase) : Attended (m.setPhase k phase) := by
  refine h.modify (fun _ => rfl) fun d hd hentry => absurd ?_ hother
  obtain rfl := Option.some.inj (hk.symm.trans hd)
  simp only [entryId, hentry, Option.bind_some, hk, Option.map_some]

/-- One step. -/
theorem Attended.move (h : Attended m) (halive : m.AppendsAlive a) (hmove : Move m a m') :
    Attended m' := by
  cases hmove with
  | dial =>
    intro addr k hk
    obtain ⟨c, hc, hp⟩ := h addr k hk
    exact ⟨c, List.getElem?_append_left (List.getElem?_eq_some_iff.mp hc).1 ▸ hc, hp⟩
  | create hk phase =>
    exact h.modify (fun _ => rfl) fun _ _ _ => Or.inl rfl
  | @append k c localAddr hk phase =>
    have hmodified : Attended (m.modify k fun c => { c with appended := true }) := by
      refine h.modify (fun _ => rfl) fun d hd hentry => ?_
      obtain ⟨d', hd', -, hphase⟩ := h _ _ hentry
      obtain rfl := Option.some.inj (hd.symm.trans hd')
      exact hphase
    have hk' := conns_modify m k (fun c => { c with appended := true }) k
    rw [hk, Option.map_some, if_pos rfl] at hk'
    exact hmodified.appendConnection hk' fun hreg => halive c hk hreg
  | endLoop hk phase =>
    exact h.modify (fun _ => rfl) fun _ _ _ => Or.inr rfl
  | stale hk phase other => exact h.stale hk other _
  | @removed k j c d hk phase entry hj same =>
    refine (h.remove c.peer).modify (fun _ => rfl) fun d' hd' hentry => ?_
    obtain rfl := Option.some.inj (hk.symm.trans hd')
    rw [remove_connections_self] at hentry
    cases hentry
  | @tell k c hk phase =>
    refine h.modify (fun _ => rfl) fun d hd hentry => ?_
    obtain ⟨d', hd', -, hphase⟩ := h _ _ hentry
    obtain rfl := Option.some.inj (hd.symm.trans hd')
    obtain rfl := Option.some.inj (hk.symm.trans hd)
    simp [phase] at hphase
  | absent entry => exact h
  | disconnect entry => exact (h.remove _).close _
  | shutdown =>
    intro addr k hk
    cases hk

/-- In every run in which a connection is put into the map only while its handler is still before
it, the map has no dead connection whenever no handler is left. -/
theorem allRunning_of_quiet {labels : List Label}
    (halong : Along step (fun m a => m.AppendsAlive a) start labels)
    (hrun : run step start labels = some m) (hquiet : m.Quiet) : m.AllRunning := by
  have hstep : ∀ (m : Manager) a m', Attended m → m.AppendsAlive a → step m a = some m' →
      Attended m' := fun _ _ _ h halive hs => h.move halive (step_move hs)
  have hstart : Attended start := by
    intro addr k hk
    cases hk
  exact (run_invariant_along hstep hstart halong hrun).allRunning hquiet

end Manager

/-- A connection is made and put into the map while its task runs. -/
def sampleArrival : List Label := [.dial samplePeer, .create 0, .append 0 (some sampleLocal)]

/-- The sample run ends with its connection running. -/
theorem allRunning_sampleArrival : ∃ m,
    run Manager.step .start sampleArrival = some m ∧ m.connections samplePeer = some 0 ∧
      m.AllRunning := by
  have halong : Along Manager.step (fun m a => m.AppendsAlive a) .start sampleArrival := by
    refine ⟨trivial, fun m₁ h₁ => ⟨trivial, fun m₂ h₂ => ⟨fun c hc _ => Or.inl ?_, fun _ _ =>
      trivial⟩⟩⟩
    obtain rfl := Option.some.inj h₁
    obtain rfl := Option.some.inj h₂
    obtain rfl := Option.some.inj hc
    rfl
  have hrun : ((run Manager.step .start sampleArrival).any fun m =>
      decide (m.connections samplePeer = some 0 ∧ m.Quiet)) = true := by decide +kernel
  obtain ⟨m, hm, hentry, hquiet⟩ := exists_of_any hrun
  exact ⟨m, hm, hentry, Manager.allRunning_of_quiet halong hm hquiet⟩

/-- The peer closes a connection before it is put into the map, and the handler finds nothing. -/
def sampleEarlyClose : List Label :=
  [.dial samplePeer, .create 0, .endLoop 0, .handle 0, .append 0 (some sampleLocal)]

/-- The dead connection stays in the map. -/
theorem not_allRunning_sampleEarlyClose : ∃ m,
    run Manager.step .start sampleEarlyClose = some m ∧ m.Quiet ∧ ¬ m.AllRunning := by
  have hrun : ((run Manager.step .start sampleEarlyClose).any fun m =>
      decide (m.Quiet ∧ m.connections samplePeer = some 0 ∧
        m.conns[0]? = some ⟨0, samplePeer, .finished, true, false⟩)) = true := by decide +kernel
  obtain ⟨m, hm, hquiet, hentry, hconn⟩ := exists_of_any hrun
  refine ⟨m, hm, hquiet, fun hall => ?_⟩
  obtain ⟨c, hc, hrunning⟩ := hall samplePeer 0 hentry
  obtain rfl := Option.some.inj (hconn.symm.trans hc)
  cases hrunning

end Bqti.Network
