import Bqti.Network.Connections

/-!
# Two nodes that dial each other

Each of two nodes dials the other, so that there are two connections between them, and appends
both of them in some order. The smaller side keeps what it appended first and the greater side
what it appended last. When all closes have come through, both hold the same connection in every
case precisely when they append in opposite orders.
-/

namespace Bqti.Network

open Bqti.Core Bqti.Dht

/-- The two nodes. -/
inductive Side
  | a
  | b
  deriving DecidableEq

/-- The other node. -/
def Side.other : Side → Side
  | .a => .b
  | .b => .a

/-- The two sides are different. -/
theorem Side.other_ne (s : Side) : s.other ≠ s := by
  cases s with
  | a => exact fun h => by cases h
  | b => exact fun h => by cases h

/-- Each side is one of the two. -/
theorem Side.eq_or_eq_other (s low : Side) : s = low ∨ s = low.other := by
  cases s <;> cases low <;> first | exact Or.inl rfl | exact Or.inr rfl

@[simp] theorem Side.other_other (s : Side) : s.other.other = s := by
  cases s <;> rfl

/-- A node, with the connections it has still to append. -/
structure Endpoint where
  manager : Manager
  todo : List Nat

/-- Both nodes. The first connection was dialled by `a`, the second by `b`. -/
structure Pair where
  a : Endpoint
  b : Endpoint

namespace Pair

/-- One of the nodes. -/
def get (p : Pair) : Side → Endpoint
  | .a => p.a
  | .b => p.b

/-- Change one of the nodes. -/
def set (p : Pair) (s : Side) (e : Endpoint) : Pair :=
  match s with
  | .a => { p with a := e }
  | .b => { p with b := e }

/-- One of the sides has closed a connection. -/
def closed (p : Pair) (k : Nat) : Bool :=
  (p.a.manager.conns[k]?).any (·.closed) || (p.b.manager.conns[k]?).any (·.closed)

/-- A step of one of the nodes: the next append, the end of a task, or a step of a handler. -/
inductive Label
  | append (s : Side)
  | endLoop (s : Side) (k : Nat)
  | handle (s : Side) (k : Nat)
  | tell (s : Side) (k : Nat)

/-- A step of the manager of one node. -/
def act (p : Pair) (s : Side) (todo : List Nat) (l : Network.Label) : Option Pair :=
  ((p.get s).manager.step l).map fun m => p.set s ⟨m, todo⟩

/-- One step. A task ends only when one of the sides has closed the connection. -/
def step (addr : Side → SocketAddr) (p : Pair) : Label → Option Pair
  | .append s =>
      match (p.get s).todo with
      | [] => none
      | k :: todo => p.act s todo (.append k (some (addr s)))
  | .endLoop s k => if p.closed k then p.act s (p.get s).todo (.endLoop k) else none
  | .handle s k => p.act s (p.get s).todo (.handle k)
  | .tell s k => p.act s (p.get s).todo (.tell k)

/-- The order in which a node appends the two connections. -/
def order : (c1First : Bool) → List Nat
  | true => [0, 1]
  | false => [1, 0]

/-- A node with two established connections to its peer. -/
def endpoint (peer : SocketAddr) (ids : Nat → Nat) (c1First : Bool) : Endpoint :=
  ⟨⟨fun _ => none, max (ids 0) (ids 1) + 1,
    [⟨ids 0, peer, .running, false, false⟩, ⟨ids 1, peer, .running, false, false⟩], []⟩,
    order c1First⟩

/-- Both connections are established and none is appended. -/
def start (addr : Side → SocketAddr) (ids : Side → Nat → Nat) (c1First : Side → Bool) : Pair :=
  ⟨endpoint (addr .b) (ids .a) (c1First .a), endpoint (addr .a) (ids .b) (c1First .b)⟩

/-- Everything was appended, all closes have come through, and no handler is left. -/
def Settled (p : Pair) : Prop :=
  ∀ s, (p.get s).todo = [] ∧ ∀ k c, (p.get s).manager.conns[k]? = some c →
    (c.phase = .running → p.closed k = false) ∧ c.phase ≠ .leaving ∧ c.phase ≠ .notifying

/-- Both nodes hold the same connection, which runs and which neither has closed. -/
def Converged (addr : Side → SocketAddr) (p : Pair) : Prop :=
  ∃ k, p.closed k = false ∧ ∀ s, (p.get s).manager.connections (addr s.other) = some k ∧
    ∃ c, (p.get s).manager.conns[k]? = some c ∧ c.phase = .running

@[simp] theorem get_set_self (p : Pair) (s : Side) (e : Endpoint) : (p.set s e).get s = e := by
  cases s <;> rfl

@[simp] theorem set_set (p : Pair) (s : Side) (e e' : Endpoint) :
    (p.set s e).set s e' = p.set s e' := by
  cases s <;> rfl

/-- Setting one endpoint keeps the other. -/
theorem get_set_of_ne {s s' : Side} (h : s' ≠ s) (p : Pair) (e : Endpoint) :
    (p.set s e).get s' = p.get s' := by
  cases s <;> cases s' <;> first | rfl | exact absurd rfl h

variable {addr : Side → SocketAddr} {p p' : Pair} {x y : Nat}

/-- A step of the pair is a step of one manager. -/
theorem act_eq_some {s : Side} {todo : List Nat} {l : Network.Label}
    (h : p.act s todo l = some p') :
    ∃ m, (p.get s).manager.step l = some m ∧ p' = p.set s ⟨m, todo⟩ := by
  obtain ⟨m, hm, rfl⟩ := Option.map_eq_some_iff.mp h
  exact ⟨m, hm, rfl⟩

/-! ## Opposite orders -/

/-- A node that holds on to one of two connections, which runs and is not closed here. -/
structure Holding (m : Manager) (peer : SocketAddr) (x y : Nat) : Prop where
  both : ∀ k c, m.conns[k]? = some c → k = x ∨ k = y
  stays : ∃ c, m.conns[x]? = some c ∧ c.peer = peer ∧ c.phase = .running ∧ c.closed = false
  goes : ∃ c, m.conns[y]? = some c ∧ c.peer = peer
  ids : ∀ c d, m.conns[x]? = some c → m.conns[y]? = some d → c.id ≠ d.id

/-- What may be done to the connection that stays. -/
structure Harmless (f : Connection → Connection) : Prop where
  id : ∀ c, (f c).id = c.id
  peer : ∀ c, (f c).peer = c.peer

section Holding

variable {m m' : Manager} {peer : SocketAddr}

/-- A harmless change keeps the manager holding, if the held connection stays. -/
theorem Holding.modify (h : Holding m peer x y) {k : Nat} {f : Connection → Connection}
    (hf : Harmless f) (hx : k = x → ∀ c, (f c).phase = c.phase ∧ (f c).closed = c.closed) :
    Holding (m.modify k f) peer x y := by
  refine ⟨fun j c hj => ?_, ?_, ?_, fun c d hc hd => ?_⟩
  · rw [Manager.conns_modify] at hj
    obtain ⟨c', hc', -⟩ := Option.map_eq_some_iff.mp hj
    exact h.both j c' hc'
  · obtain ⟨c, hc, hpeer, hphase, hclosed⟩ := h.stays
    rw [Manager.conns_modify, hc, Option.map_some]
    refine ⟨_, rfl, ?_⟩
    split
    · rename_i hkx
      exact ⟨(hf.peer c).trans hpeer, (hx hkx c).1.trans hphase, (hx hkx c).2.trans hclosed⟩
    · exact ⟨hpeer, hphase, hclosed⟩
  · obtain ⟨c, hc, hpeer⟩ := h.goes
    rw [Manager.conns_modify, hc, Option.map_some]
    refine ⟨_, rfl, ?_⟩
    split
    · exact (hf.peer c).trans hpeer
    · exact hpeer
  · rw [Manager.conns_modify] at hc hd
    obtain ⟨c', hc', rfl⟩ := Option.map_eq_some_iff.mp hc
    obtain ⟨d', hd', rfl⟩ := Option.map_eq_some_iff.mp hd
    have hid : ∀ (j : Nat) (c : Connection), (if k = j then f c else c).id = c.id := by
      intro j c
      split
      · exact hf.id c
      · rfl
    rw [hid, hid]
    exact h.ids c' d' hc' hd'

/-- Only the map and the log change. -/
theorem Holding.congr (h : Holding m peer x y) (hconns : m'.conns = m.conns) :
    Holding m' peer x y :=
  ⟨hconns ▸ h.both, hconns ▸ h.stays, hconns ▸ h.goes, hconns ▸ h.ids⟩

/-- The connection that goes may do what it likes. -/
theorem Holding.setPhase (h : Holding m peer x y) (hxy : x ≠ y) (phase : Phase) :
    Holding (m.setPhase y phase) peer x y :=
  h.modify ⟨fun _ => rfl, fun _ => rfl⟩ fun hyx => absurd hyx.symm hxy

/-- Closing the other connection keeps the manager holding. -/
theorem Holding.close (h : Holding m peer x y) (hxy : x ≠ y) : Holding (m.close y) peer x y :=
  h.modify ⟨fun _ => rfl, fun _ => rfl⟩ fun hyx => absurd hyx.symm hxy

/-- A task or a handler of the connection that goes: at most its own entry goes. -/
theorem Holding.leave (h : Holding m peer x y) (hxy : x ≠ y) {l : Network.Label}
    (hl : l = .endLoop y ∨ l = .handle y ∨ l = .tell y) (hstep : m.step l = some m') :
    Holding m' peer x y ∧ (m'.connections peer = m.connections peer ∨
      m.connections peer = some y ∧ m'.connections peer = none) := by
  obtain ⟨cy, hy, hpeer⟩ := h.goes
  rcases hl with rfl | rfl | rfl
  · cases Manager.step_move hstep with
    | endLoop hk phase => exact ⟨h.setPhase hxy _, Or.inl rfl⟩
  · cases Manager.step_move hstep with
    | stale hk phase other => exact ⟨h.setPhase hxy _, Or.inl rfl⟩
    | @removed k j c d hk phase entry hj same =>
      obtain rfl := Option.some.inj (hy.symm.trans hk)
      rw [hpeer] at entry
      -- The entry has the identifier of the connection that goes, so it is that connection.
      have hjy : j = y := by
        rcases h.both j d hj with rfl | hjy
        · exact absurd same (h.ids d cy hj hy)
        · exact hjy
      refine ⟨(h.setPhase hxy .notifying).congr rfl, Or.inr ⟨hjy ▸ entry, ?_⟩⟩
      rw [hpeer]
      exact Manager.remove_connections_self m peer
  · cases Manager.step_move hstep with
    | tell hk phase => exact ⟨(h.setPhase hxy .finished).congr rfl, Or.inl rfl⟩

/-- The connection that stays has no handler. -/
theorem Holding.stays_handler (h : Holding m peer x y) {l : Network.Label}
    (hl : l = .handle x ∨ l = .tell x) : m.step l = none := by
  obtain ⟨c, hc, -, hphase, -⟩ := h.stays
  rcases hl with rfl | rfl
  · simp [Manager.step, hc, hphase]
  · simp [Manager.step, hc, hphase]

/-- Either connection is appended to the same map. -/
theorem Holding.append (h : Holding m peer x y) {k : Nat} {localAddr : SocketAddr}
    (hstep : m.step (.append k (some localAddr)) = some m') :
    ∃ m₁, Holding m₁ peer x y ∧ m₁.connections = m.connections ∧
      m' = m₁.appendConnection k peer (some localAddr) := by
  cases Manager.step_move hstep with
  | @append k c localAddr hk phase =>
    have hpeer : c.peer = peer := by
      rcases h.both k c hk with rfl | rfl
      · obtain ⟨d, hd, hpeer, -⟩ := h.stays
        exact Option.some.inj (hd.symm.trans hk) ▸ hpeer
      · obtain ⟨d, hd, hpeer⟩ := h.goes
        exact Option.some.inj (hd.symm.trans hk) ▸ hpeer
    refine ⟨m.modify k fun c => { c with appended := true }, ?_, rfl, by rw [hpeer]⟩
    exact h.modify ⟨fun _ => rfl, fun _ => rfl⟩ fun _ _ => ⟨rfl, rfl⟩

/-- What the smaller side has appended and holds: first the connection that stays. -/
def LowEntry (x y : Nat) (todo : List Nat) (entry : Option Nat) : Prop :=
  todo = [x, y] ∧ entry = none ∨ todo = [y] ∧ entry = some x ∨ todo = [] ∧ entry = some x

/-- What the greater side has appended and holds: last the connection that stays. -/
def HighEntry (x y : Nat) (todo : List Nat) (entry : Option Nat) : Prop :=
  todo = [y, x] ∧ entry = none ∨ todo = [x] ∧ (entry = none ∨ entry = some y) ∨
    todo = [] ∧ entry = some x

/-- The smaller side appends. -/
theorem Holding.append_low (h : Holding m peer x y) (hxy : x ≠ y) {localAddr : SocketAddr}
    (hlt : localAddr < peer) {k : Nat} {todo : List Nat}
    (hentry : LowEntry x y (k :: todo) (m.connections peer))
    (hstep : m.step (.append k (some localAddr)) = some m') :
    Holding m' peer x y ∧ LowEntry x y todo (m'.connections peer) := by
  obtain ⟨m₁, hm₁, hsame, rfl⟩ := h.append hstep
  simp only [Manager.appendConnection, hsame]
  rcases hentry with ⟨htodo, hentry⟩ | ⟨htodo, hentry⟩ | ⟨htodo, -⟩
  · obtain ⟨rfl, rfl⟩ := List.cons.inj htodo
    rw [hentry]
    refine ⟨hm₁.congr rfl, Or.inr (Or.inl ⟨rfl, ?_⟩)⟩
    exact Manager.insert_connections_self m₁ peer k
  · obtain ⟨rfl, rfl⟩ := List.cons.inj htodo
    rw [hentry]
    simp only [if_pos hlt]
    exact ⟨hm₁.close hxy, Or.inr (Or.inr ⟨rfl, (congrFun hsame peer).trans hentry⟩)⟩
  · cases htodo

/-- The greater side appends. -/
theorem Holding.append_high (h : Holding m peer x y) (hxy : x ≠ y) {localAddr : SocketAddr}
    (hlt : ¬ localAddr < peer) {k : Nat} {todo : List Nat}
    (hentry : HighEntry x y (k :: todo) (m.connections peer))
    (hstep : m.step (.append k (some localAddr)) = some m') :
    Holding m' peer x y ∧ HighEntry x y todo (m'.connections peer) := by
  obtain ⟨m₁, hm₁, hsame, rfl⟩ := h.append hstep
  simp only [Manager.appendConnection, hsame]
  rcases hentry with ⟨htodo, hentry⟩ | ⟨htodo, hentry | hentry⟩ | ⟨htodo, -⟩
  · obtain ⟨rfl, rfl⟩ := List.cons.inj htodo
    rw [hentry]
    refine ⟨hm₁.congr rfl, Or.inr (Or.inl ⟨rfl, Or.inr ?_⟩)⟩
    exact Manager.insert_connections_self m₁ peer k
  · obtain ⟨rfl, rfl⟩ := List.cons.inj htodo
    rw [hentry]
    refine ⟨hm₁.congr rfl, Or.inr (Or.inr ⟨rfl, ?_⟩)⟩
    exact Manager.insert_connections_self m₁ peer k
  · obtain ⟨rfl, rfl⟩ := List.cons.inj htodo
    rw [hentry]
    simp only [if_neg hlt]
    refine ⟨(hm₁.close hxy).congr rfl, Or.inr (Or.inr ⟨rfl, ?_⟩)⟩
    exact Manager.insert_connections_self m₁ peer k
  · cases htodo

end Holding

/-- Both nodes hold on to the same connection. -/
structure Opposed (addr : Side → SocketAddr) (low : Side) (x y : Nat) (p : Pair) : Prop where
  holding : ∀ s, Holding (p.get s).manager (addr s.other) x y
  lowEntry : LowEntry x y (p.get low).todo ((p.get low).manager.connections (addr low.other))
  highEntry : HighEntry x y (p.get low.other).todo
    ((p.get low.other).manager.connections (addr low.other.other))

/-- The connection that is kept is not closed. -/
theorem Opposed.closed {low : Side} (h : Opposed addr low x y p) : p.closed x = false := by
  obtain ⟨c, hc, -, -, hclosed⟩ := (h.holding .a).stays
  obtain ⟨d, hd, -, -, hclosed'⟩ := (h.holding .b).stays
  have hc' : p.a.manager.conns[x]? = some c := hc
  have hd' : p.b.manager.conns[x]? = some d := hd
  simp [Pair.closed, hc', hd', hclosed, hclosed']

/-- One side goes on. -/
theorem Opposed.set {low : Side} (h : Opposed addr low x y p) {s : Side} {e : Endpoint}
    (hholding : Holding e.manager (addr s.other) x y)
    (hlow : s = low → LowEntry x y e.todo (e.manager.connections (addr s.other)))
    (hhigh : s = low.other → HighEntry x y e.todo (e.manager.connections (addr s.other))) :
    Opposed addr low x y (p.set s e) where
  holding := by
    intro s'
    by_cases hs : s' = s
    · subst hs
      rw [get_set_self]
      exact hholding
    · rw [get_set_of_ne hs]
      exact h.holding s'
  lowEntry := by
    by_cases hs : low = s
    · subst hs
      rw [get_set_self]
      exact hlow rfl
    · rw [get_set_of_ne hs]
      exact h.lowEntry
  highEntry := by
    by_cases hs : low.other = s
    · subst hs
      rw [get_set_self]
      exact hhigh rfl
    · rw [get_set_of_ne hs]
      exact h.highEntry

/-- The smaller side never holds the connection that goes. -/
theorem LowEntry.leave {todo : List Nat} {entry entry' : Option Nat} (hxy : x ≠ y)
    (h : LowEntry x y todo entry) (hentry : entry' = entry ∨ entry = some y ∧ entry' = none) :
    LowEntry x y todo entry' := by
  rcases hentry with rfl | ⟨rfl, rfl⟩
  · exact h
  · simp [LowEntry, hxy.symm] at h

/-- The greater side may lose the connection that goes. -/
theorem HighEntry.leave {todo : List Nat} {entry entry' : Option Nat} (hxy : x ≠ y)
    (h : HighEntry x y todo entry) (hentry : entry' = entry ∨ entry = some y ∧ entry' = none) :
    HighEntry x y todo entry' := by
  rcases hentry with rfl | ⟨rfl, rfl⟩
  · exact h
  · rcases h with ⟨-, h⟩ | ⟨htodo, -⟩ | ⟨-, h⟩
    · cases h
    · exact Or.inr (Or.inl ⟨htodo, Or.inl rfl⟩)
    · exact absurd (Option.some.inj h).symm hxy

/-- A task or a handler of the connection that goes, on either side. -/
theorem Opposed.leave {low : Side} (h : Opposed addr low x y p) (hxy : x ≠ y) {s : Side}
    {l : Network.Label} (hl : l = .endLoop y ∨ l = .handle y ∨ l = .tell y)
    (hact : p.act s (p.get s).todo l = some p') : Opposed addr low x y p' := by
  obtain ⟨m, hm, rfl⟩ := act_eq_some hact
  obtain ⟨hholding, hentry⟩ := (h.holding s).leave hxy hl hm
  refine h.set hholding (fun hs => ?_) (fun hs => ?_)
  · subst hs
    exact h.lowEntry.leave hxy hentry
  · subst hs
    exact h.highEntry.leave hxy hentry

/-- One side appends its next connection. -/
theorem Opposed.append {low : Side} (h : Opposed addr low x y p) (hxy : x ≠ y)
    (hlt : addr low < addr low.other) {s : Side} {k : Nat} {todo : List Nat}
    (htodo : (p.get s).todo = k :: todo)
    (hact : p.act s todo (.append k (some (addr s))) = some p') : Opposed addr low x y p' := by
  obtain ⟨m, hm, rfl⟩ := act_eq_some hact
  rcases s.eq_or_eq_other low with rfl | rfl
  · have hlow := h.lowEntry
    rw [htodo] at hlow
    obtain ⟨hholding, hentry⟩ := (h.holding s).append_low hxy hlt hlow hm
    exact h.set hholding (fun _ => hentry) fun hs => absurd hs.symm s.other_ne
  · have hhigh := h.highEntry
    rw [htodo] at hhigh
    have hnlt : ¬ addr low.other < addr low.other.other := by
      rw [low.other_other]
      exact SocketAddr.not_lt_of_gt hlt
    obtain ⟨hholding, hentry⟩ := (h.holding low.other).append_high hxy hnlt hhigh hm
    exact h.set hholding (fun hs => absurd hs low.other_ne) fun _ => hentry

/-- Every step keeps the sides opposed. -/
theorem Opposed.step {low : Side} (h : Opposed addr low x y p) (hxy : x ≠ y)
    (hlt : addr low < addr low.other) {l : Label} (hstep : Pair.step addr p l = some p') :
    Opposed addr low x y p' := by
  have hboth : ∀ {s k l}, p.act s (p.get s).todo l = some p' →
      l = .endLoop k ∨ l = .handle k ∨ l = .tell k → k = x ∨ k = y := by
    intro s k l hact hl
    obtain ⟨m, hm, -⟩ := act_eq_some hact
    obtain ⟨c, hc⟩ : ∃ c, (p.get s).manager.conns[k]? = some c := by
      rcases hl with rfl | rfl | rfl
      all_goals
        obtain ⟨c, hc, -⟩ := Option.bind_eq_some_iff.mp hm
        exact ⟨c, hc⟩
    exact (h.holding s).both k c hc
  cases l with
  | append s =>
    simp only [Pair.step] at hstep
    split at hstep
    · cases hstep
    · rename_i k todo htodo
      exact h.append hxy hlt htodo hstep
  | endLoop s k =>
    obtain ⟨hclosed, hact⟩ := Option.ite_none_right_eq_some.mp hstep
    rcases hboth hact (Or.inl rfl) with rfl | rfl
    · rw [h.closed] at hclosed
      cases hclosed
    · exact h.leave hxy (Or.inl rfl) hact
  | handle s k =>
    rcases hboth hstep (Or.inr (Or.inl rfl)) with rfl | rfl
    · obtain ⟨m, hm, -⟩ := act_eq_some hstep
      rw [(h.holding s).stays_handler (Or.inl rfl)] at hm
      cases hm
    · exact h.leave hxy (Or.inr (Or.inl rfl)) hstep
  | tell s k =>
    rcases hboth hstep (Or.inr (Or.inr rfl)) with rfl | rfl
    · obtain ⟨m, hm, -⟩ := act_eq_some hstep
      rw [(h.holding s).stays_handler (Or.inr rfl)] at hm
      cases hm
    · exact h.leave hxy (Or.inr (Or.inr rfl)) hstep

/-- When everything was appended, both hold the connection that stays. -/
theorem Opposed.converged {low : Side} (h : Opposed addr low x y p) (hsettled : p.Settled) :
    p.Converged addr := by
  refine ⟨x, h.closed, fun s => ⟨?_, ?_⟩⟩
  · rcases s.eq_or_eq_other low with rfl | rfl
    · have hlow := h.lowEntry
      rw [(hsettled s).1] at hlow
      simpa [LowEntry] using hlow
    · have hhigh := h.highEntry
      rw [(hsettled low.other).1] at hhigh
      simpa [HighEntry] using hhigh
  · obtain ⟨c, hc, -, hphase, -⟩ := (h.holding s).stays
    exact ⟨c, hc, hphase⟩

/-- Established connections to a peer with distinct identifiers. -/
theorem holding_endpoint {peer : SocketAddr} {ids : Nat → Nat} (hids : ids 0 ≠ ids 1)
    (c1First c1First' : Bool) :
    Holding (endpoint peer ids c1First).manager peer
      (if c1First' then 0 else 1) (if c1First' then 1 else 0) := by
  have hboth : ∀ k c, (endpoint peer ids c1First).manager.conns[k]? = some c →
      k = 0 ∧ c = ⟨ids 0, peer, .running, false, false⟩ ∨
        k = 1 ∧ c = ⟨ids 1, peer, .running, false, false⟩ := by
    intro k c hk
    match k, hk with
    | 0, hk => exact Or.inl ⟨rfl, (Option.some.inj hk).symm⟩
    | 1, hk => exact Or.inr ⟨rfl, (Option.some.inj hk).symm⟩
  cases c1First' with
  | true =>
    refine ⟨fun k c hk => ?_, ⟨_, rfl, rfl, rfl, rfl⟩, ⟨_, rfl, rfl⟩, fun c d hc hd => ?_⟩
    · exact (hboth k c hk).imp And.left And.left
    · obtain rfl := Option.some.inj hc
      obtain rfl := Option.some.inj hd
      exact hids
  | false =>
    refine ⟨fun k c hk => ?_, ⟨_, rfl, rfl, rfl, rfl⟩, ⟨_, rfl, rfl⟩, fun c d hc hd => ?_⟩
    · exact (hboth k c hk).symm.imp And.left And.left
    · obtain rfl := Option.some.inj hc
      obtain rfl := Option.some.inj hd
      exact hids.symm

/-- Both endpoints start with the two connections in their own order. -/
theorem get_start (ids : Side → Nat → Nat) (c1First : Side → Bool) (s : Side) :
    (start addr ids c1First).get s = endpoint (addr s.other) (ids s) (c1First s) := by
  cases s <;> rfl

/-- The order is one of the two. -/
theorem order_eq (c1First : Bool) :
    order c1First = [if c1First then 0 else 1, if c1First then 1 else 0] := by
  cases c1First <;> rfl

/-- The other order is the reverse. -/
theorem order_not (c1First : Bool) :
    order (!c1First) = [if c1First then 1 else 0, if c1First then 0 else 1] := by
  cases c1First <;> rfl

/-- The connection that stays is the first that the smaller side appends. -/
theorem opposed_start {ids : Side → Nat → Nat} (hids : ∀ s, ids s 0 ≠ ids s 1)
    {c1First : Side → Bool} (hopposite : c1First .a ≠ c1First .b) (low : Side) :
    Opposed addr low (if c1First low then 0 else 1) (if c1First low then 1 else 0)
      (start addr ids c1First) where
  holding := by
    intro s
    rw [get_start]
    exact holding_endpoint (hids s) _ _
  lowEntry := by
    rw [get_start]
    exact Or.inl ⟨order_eq _, rfl⟩
  highEntry := by
    have hother : c1First low.other = !c1First low := by
      cases low with
      | a => exact Bool.eq_not.mpr hopposite.symm
      | b => exact Bool.eq_not.mpr hopposite
    rw [get_start]
    refine Or.inl ⟨?_, rfl⟩
    rw [endpoint, hother]
    exact order_not _

/-! ## Closes come through -/

end Pair

/-- How far a connection is from its end. -/
def Phase.rank : Phase → Nat
  | .dialing => 4
  | .running => 3
  | .leaving => 2
  | .notifying => 1
  | .finished => 0

/-- How far the connections of a node are from their end. -/
def Manager.rank (m : Manager) : Nat := (m.conns.map (·.phase.rank)).sum

/-- A later phase has a lower rank. -/
theorem Manager.rank_setPhase_lt {m : Manager} {k : Nat} {c : Connection} {phase : Phase}
    (hk : m.conns[k]? = some c) (hlt : phase.rank < c.phase.rank) :
    (m.setPhase k phase).rank < m.rank := by
  have hset : (m.setPhase k phase).conns = m.conns.set k { c with phase := phase } := by
    simp [setPhase, modify, List.modify_eq_set_getElem?, hk]
  have hsum : ((m.setPhase k phase).conns.map (·.phase.rank)).sum + c.phase.rank =
      (m.conns.map (·.phase.rank)).sum + phase.rank := by
    rw [hset]
    exact sum_map_set _ hk
  simp only [rank]
  omega

/-- The end of a task and the steps of a handler bring a connection nearer to its end and close
nothing. -/
theorem Manager.rank_step_lt {m m' : Manager} {k : Nat} {l : Label}
    (hl : l = .endLoop k ∨ l = .handle k ∨ l = .tell k) (hstep : m.step l = some m') :
    m'.rank < m.rank ∧ m'.conns.map (·.closed) = m.conns.map (·.closed) := by
  have hset : ∀ {c : Connection} {phase : Phase}, m.conns[k]? = some c →
      phase.rank < c.phase.rank → m'.conns = (m.setPhase k phase).conns →
      m'.rank < m.rank ∧ m'.conns.map (·.closed) = m.conns.map (·.closed) := by
    intro c phase hk hlt hconns
    refine ⟨?_, ?_⟩
    · have hrank := m.rank_setPhase_lt hk hlt
      rw [rank, ← hconns] at hrank
      exact hrank
    · rw [hconns]
      exact map_modify_eq _ _ _ _ fun _ => rfl
  rcases hl with rfl | rfl | rfl
  · cases step_move hstep with
    | endLoop hk phase => exact hset hk (by rw [phase]; decide) rfl
  · cases step_move hstep with
    | stale hk phase other => exact hset hk (by rw [phase]; decide) rfl
    | removed hk phase entry hj same => exact hset hk (by rw [phase]; decide) rfl
  · cases step_move hstep with
    | tell hk phase => exact hset hk (by rw [phase]; decide) rfl

namespace Pair

variable {addr : Side → SocketAddr} {p p' : Pair}

/-- How far the connections of both nodes are from their end. -/
def rank (p : Pair) : Nat := p.a.manager.rank + p.b.manager.rank

/-- The connections that a side has closed. -/
def closedBy (p : Pair) (s : Side) : List Bool := (p.get s).manager.conns.map (·.closed)

/-- A connection is closed if one of the sides has closed it. -/
theorem closed_eq_any (p : Pair) (low : Side) (k : Nat) : p.closed k =
    (((p.closedBy low)[k]?).any id || ((p.closedBy low.other)[k]?).any id) := by
  cases low with
  | a => simp only [closed, closedBy, get, Side.other, List.getElem?_map, Option.any_map, id]
  | b =>
    rw [Bool.or_comm]
    simp only [closed, closedBy, get, Side.other, List.getElem?_map, Option.any_map, id]

/-- A step of a task or a handler of one side. -/
theorem rank_act_lt {s : Side} {k : Nat} {l : Network.Label}
    (hl : l = .endLoop k ∨ l = .handle k ∨ l = .tell k)
    (hact : p.act s (p.get s).todo l = some p') :
    p'.rank < p.rank ∧ p'.closedBy = p.closedBy ∧ ∀ s', (p'.get s').todo = (p.get s').todo := by
  obtain ⟨m, hm, rfl⟩ := act_eq_some hact
  obtain ⟨hrank, hclosed⟩ := Manager.rank_step_lt hl hm
  refine ⟨?_, ?_, ?_⟩
  · cases s with
    | a => exact Nat.add_lt_add_right hrank _
    | b => exact Nat.add_lt_add_left hrank _
  · funext s'
    by_cases hs : s' = s
    · subst hs
      rw [closedBy, get_set_self]
      exact hclosed
    · rw [closedBy, get_set_of_ne hs, closedBy]
  · intro s'
    by_cases hs : s' = s
    · subst hs
      rw [get_set_self]
    · rw [get_set_of_ne hs]

/-- If everything was appended and not all closes have come through, a task or a handler can take
a step. -/
theorem exists_step_of_not_settled (addr : Side → SocketAddr) (htodo : ∀ s, (p.get s).todo = [])
    (h : ¬ p.Settled) :
    ∃ l p', step addr p l = some p' ∧ p'.rank < p.rank ∧ p'.closedBy = p.closedBy ∧
      ∀ s, (p'.get s).todo = (p.get s).todo := by
  simp only [Settled, htodo, true_and, not_forall] at h
  obtain ⟨s, k, c, hk, hc⟩ := h
  cases hphase : c.phase with
  | dialing => simp [hphase] at hc
  | finished => simp [hphase] at hc
  | running =>
    have hclosed : p.closed k = true := by simpa [hphase] using hc
    have hact : p.act s (p.get s).todo (.endLoop k) =
        some (p.set s ⟨(p.get s).manager.setPhase k .leaving, (p.get s).todo⟩) := by
      simp [act, Manager.step, hk, hphase]
    refine ⟨.endLoop s k, _, ?_, rank_act_lt (Or.inl rfl) hact⟩
    rw [step, if_pos hclosed]
    exact hact
  | leaving =>
    have hact : p.act s (p.get s).todo (.handle k) =
        some (p.set s ⟨(p.get s).manager.onDisconnect k c.peer c.id, (p.get s).todo⟩) := by
      simp [act, Manager.step, hk, hphase]
    exact ⟨.handle s k, _, hact, rank_act_lt (Or.inr (Or.inl rfl)) hact⟩
  | notifying =>
    have hact : ∃ p', p.act s (p.get s).todo (.tell k) = some p' := by
      simp [act, Manager.step, hk, hphase]
    obtain ⟨p', hact⟩ := hact
    exact ⟨.tell s k, p', hact, rank_act_lt (Or.inr (Or.inr rfl)) hact⟩

/-- From every state in which everything was appended, all closes can come through. -/
theorem exists_settled (addr : Side → SocketAddr) (htodo : ∀ s, (p.get s).todo = []) :
    ∃ labels p', run (step addr) p labels = some p' ∧ p'.Settled ∧ p'.closedBy = p.closedBy := by
  induction hn : p.rank using Nat.strong_induction_on generalizing p with
  | _ n ih =>
    by_cases hsettled : p.Settled
    · exact ⟨[], p, rfl, hsettled, rfl⟩
    · obtain ⟨l, p₁, hstep, hlt, hclosed, hsame⟩ :=
        exists_step_of_not_settled addr htodo hsettled
      obtain ⟨labels, p', hrun, hp', hclosed'⟩ :=
        ih p₁.rank (hn ▸ hlt) (fun s => (hsame s).trans (htodo s)) rfl
      exact ⟨l :: labels, p', run_cons_eq_some.mpr ⟨p₁, hstep, hrun⟩, hp', hclosed'.trans hclosed⟩

/-! ## Equal orders -/

/-- Two connections are appended one after the other: the smaller side closes the second and the
greater side the first. -/
theorem run_append_endpoint (peer : SocketAddr) (ids : Nat → Nat) (c1First : Bool)
    (localAddr : SocketAddr) : ∃ k j m, order c1First = [k, j] ∧
      run Manager.step (endpoint peer ids c1First).manager
        [.append k (some localAddr), .append j (some localAddr)] = some m ∧
      m.conns.map (·.closed) =
        if localAddr < peer then [!c1First, c1First] else [c1First, !c1First] := by
  cases c1First with
  | true =>
    refine ⟨0, 1, _, rfl, rfl, ?_⟩
    by_cases hlt : localAddr < peer
    · simp [Manager.appendConnection, Manager.insert, Manager.modify, Manager.close, endpoint, hlt]
    · simp [Manager.appendConnection, Manager.insert, Manager.modify, Manager.close, endpoint, hlt]
  | false =>
    refine ⟨1, 0, _, rfl, rfl, ?_⟩
    by_cases hlt : localAddr < peer
    · simp [Manager.appendConnection, Manager.insert, Manager.modify, Manager.close, endpoint, hlt]
    · simp [Manager.appendConnection, Manager.insert, Manager.modify, Manager.close, endpoint, hlt]

/-- Both appends of one side. -/
theorem run_append_append (addr : Side → SocketAddr) {s : Side} {k j : Nat} {m : Manager}
    (htodo : (p.get s).todo = [k, j])
    (hrun : run Manager.step (p.get s).manager
      [.append k (some (addr s)), .append j (some (addr s))] = some m) :
    run (step addr) p [.append s, .append s] = some (p.set s ⟨m, []⟩) := by
  obtain ⟨m₁, hk, hrun⟩ := run_cons_eq_some.mp hrun
  obtain ⟨m₂, hj, hrun⟩ := run_cons_eq_some.mp hrun
  obtain rfl := Option.some.inj hrun
  have hfirst : step addr p (.append s) = some (p.set s ⟨m₁, [j]⟩) := by
    simp [step, act, htodo, hk]
  refine run_cons_eq_some.mpr ⟨_, hfirst, run_cons_eq_some.mpr ⟨_, ?_, rfl⟩⟩
  simp [step, act, hj]

/-- If each side has closed what the other has not, nothing is agreed on. -/
theorem not_converged_of_closedBy (low : Side) {b : Bool} (hlow : p.closedBy low = [!b, b])
    (hhigh : p.closedBy low.other = [b, !b]) : ¬ p.Converged addr := by
  rintro ⟨k, hopen, hentry⟩
  obtain ⟨-, c, hc, -⟩ := hentry low
  have hlt : k < (p.closedBy low).length := by
    rw [closedBy, List.length_map]
    exact (List.getElem?_eq_some_iff.mp hc).1
  rw [hlow] at hlt
  rw [closed_eq_any p low, hlow, hhigh] at hopen
  match k, hlt with
  | 0, _ => simp at hopen
  | 1, _ => simp at hopen

/-- If both sides append in the same order, all closes may come through without agreement. -/
theorem exists_not_converged {low : Side} (hlt : addr low < addr low.other)
    (ids : Side → Nat → Nat) {c1First : Side → Bool} (hsame : c1First .a = c1First .b) :
    ∃ labels p, run (step addr) (start addr ids c1First) labels = some p ∧ p.Settled ∧
      ¬ p.Converged addr := by
  have hother : c1First low.other = c1First low := by
    cases low with
    | a => exact hsame.symm
    | b => exact hsame
  obtain ⟨k, j, m, horder, hm, hclosed⟩ :=
    run_append_endpoint (addr low.other) (ids low) (c1First low) (addr low)
  obtain ⟨k', j', m', horder', hm', hclosed'⟩ :=
    run_append_endpoint (addr low.other.other) (ids low.other) (c1First low.other)
      (addr low.other)
  rw [if_pos hlt] at hclosed
  rw [Side.other_other, if_neg (SocketAddr.not_lt_of_gt hlt), hother] at hclosed'
  have hlow := run_append_append addr (p := start addr ids c1First) (s := low)
    (by rw [get_start]; exact horder) (by rw [get_start]; exact hm)
  have hhigh := run_append_append addr (s := low.other)
    (p := (start addr ids c1First).set low ⟨m, []⟩)
    (by rw [get_set_of_ne low.other_ne, get_start]; exact horder')
    (by rw [get_set_of_ne low.other_ne, get_start]; exact hm')
  have happended := run_append_eq_some.mpr ⟨_, hlow, hhigh⟩
  generalize hp : ((start addr ids c1First).set low ⟨m, []⟩).set low.other ⟨m', []⟩ = p at happended
  have hget : p.get low = ⟨m, []⟩ := by
    rw [← hp, get_set_of_ne low.other_ne.symm, get_set_self]
  have hget' : p.get low.other = ⟨m', []⟩ := by
    rw [← hp, get_set_self]
  have htodo : ∀ s, (p.get s).todo = [] := by
    intro s
    rcases s.eq_or_eq_other low with rfl | rfl
    · rw [hget]
    · rw [hget']
  obtain ⟨labels, p', hrun, hsettled, hsame'⟩ := exists_settled addr htodo
  refine ⟨_, p', run_append_eq_some.mpr ⟨p, happended, hrun⟩, hsettled, ?_⟩
  refine not_converged_of_closedBy low (b := c1First low) ?_ ?_
  · rw [hsame', closedBy, hget]
    exact hclosed
  · rw [hsame', closedBy, hget']
    exact hclosed'

/-- Two nodes that dial each other agree on one connection in every case precisely when they append
the two in opposite orders. -/
theorem converges_iff_opposite {ids : Side → Nat → Nat} (haddr : addr .a ≠ addr .b)
    (hids : ∀ s, ids s 0 ≠ ids s 1) (c1First : Side → Bool) :
    (∀ labels p, run (step addr) (start addr ids c1First) labels = some p → p.Settled →
      p.Converged addr) ↔ c1First .a ≠ c1First .b := by
  obtain ⟨low, hlt⟩ : ∃ low : Side, addr low < addr low.other := by
    rcases SocketAddr.lt_or_gt_of_ne haddr with hlt | hlt
    · exact ⟨.a, hlt⟩
    · exact ⟨.b, hlt⟩
  constructor
  · intro hall hsame
    obtain ⟨labels, p, hrun, hsettled, hnot⟩ := exists_not_converged hlt ids hsame
    exact hnot (hall labels p hrun hsettled)
  · intro hopposite labels p hrun hsettled
    have hxy : (if c1First low then 0 else 1) ≠ (if c1First low then 1 else 0) := by
      cases c1First low <;> decide
    have hopposed := run_invariant (fun _ _ _ h hstep => h.step hxy hlt hstep)
      (opposed_start hids hopposite low) hrun
    exact hopposed.converged hsettled

end Pair

/-- The addresses of two nodes. -/
def sampleAddr : Side → SocketAddr
  | .a => samplePeer
  | .b => sampleLocal

/-- Each side appends its own connection first, and both close the second one. -/
def sampleAgreement : List Pair.Label := [
  .append .a, .append .a, .append .b, .append .b,
  .endLoop .a 1, .endLoop .b 1, .handle .a 1, .handle .b 1]

/-- The sample run converges. -/
theorem converges_sampleAgreement : ∃ p,
    run (Pair.step sampleAddr) (.start sampleAddr (fun _ k => k) fun s => s = .a) sampleAgreement =
      some p ∧ p.Settled ∧ p.Converged sampleAddr := by
  have hrun : ((run (Pair.step sampleAddr) (.start sampleAddr (fun _ k => k) fun s => s = .a)
      sampleAgreement).any fun p => decide (p.closed 0 = false ∧
        ((p.get .a).todo = [] ∧
          (p.get .a).manager.conns.map (·.phase) = [.running, .finished]) ∧
        (p.get .b).todo = [] ∧
          (p.get .b).manager.conns.map (·.phase) = [.running, .finished])) = true := by
    decide +kernel
  obtain ⟨p, hp, hopen, ha, hb⟩ := exists_of_any hrun
  have hsettled : p.Settled := by
    intro s
    have hs : (p.get s).todo = [] ∧
        (p.get s).manager.conns.map (·.phase) = [.running, .finished] := by
      cases s with
      | a => exact ha
      | b => exact hb
    refine ⟨hs.1, fun k c hk => ?_⟩
    have hphase : ([.running, .finished] : List Phase)[k]? = some c.phase := by
      rw [← hs.2, List.getElem?_map, hk, Option.map_some]
    match k, hphase with
    | 0, hphase => simp [← Option.some.inj hphase, hopen]
    | 1, hphase => simp [← Option.some.inj hphase]
  exact ⟨p, hp, hsettled, (Pair.converges_iff_opposite (by decide) (fun _ => by decide) _).mpr
    (by decide) sampleAgreement p hp hsettled⟩

/-- Both sides append the connection of the first node first. The first closes the second
connection and the second closes the first, and all handlers run. -/
def sampleDial : List Pair.Label := [
  .append .a, .append .a, .append .b, .append .b,
  .endLoop .a 0, .endLoop .a 1, .endLoop .b 0, .endLoop .b 1,
  .handle .a 0, .handle .a 1, .handle .b 0, .handle .b 1, .tell .a 0, .tell .b 1]

/-- Neither node has a connection left. -/
theorem not_converged_sampleDial : ∃ p,
    run (Pair.step sampleAddr) (.start sampleAddr (fun _ k => k) fun _ => true) sampleDial =
      some p ∧ p.Settled ∧ ¬ p.Converged sampleAddr := by
  have hrun : ((run (Pair.step sampleAddr) (.start sampleAddr (fun _ k => k) fun _ => true)
      sampleDial).any fun p => decide ((p.get .a).manager.connections sampleLocal = none ∧
        ((p.get .a).todo = [] ∧ ∀ c ∈ (p.get .a).manager.conns, c.phase = .finished) ∧
        (p.get .b).todo = [] ∧ ∀ c ∈ (p.get .b).manager.conns, c.phase = .finished)) = true := by
    decide +kernel
  obtain ⟨p, hp, hentry, ha, hb⟩ := exists_of_any hrun
  refine ⟨p, hp, fun s => ?_, ?_⟩
  · have hs : (p.get s).todo = [] ∧ ∀ c ∈ (p.get s).manager.conns, c.phase = .finished := by
      cases s with
      | a => exact ha
      | b => exact hb
    refine ⟨hs.1, fun k c hk => ?_⟩
    simp [hs.2 c (List.mem_of_getElem? hk)]
  · rintro ⟨k, -, hheld⟩
    have hk := (hheld .a).1
    rw [show sampleAddr Side.a.other = sampleLocal from rfl, hentry] at hk
    cases hk

end Bqti.Network
