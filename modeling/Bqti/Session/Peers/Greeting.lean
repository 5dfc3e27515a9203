import Mathlib.Logic.Function.Basic

/-!
# How two nodes greet each other

What `handle_handshake`, `handle_bitfield` and a dial do between two nodes, without addresses
and torrents. A node that has dialled answers a handshake with its bitfield, any other node
answers it with a handshake of its own; whoever has both is active, and has sent its bitfield.

A dial makes its entry pending only while the entry is still its own, and no bitfield overtakes
the handshake of a dial. Then both nodes are active in the end.
-/

namespace Bqti.Session.Peers.Greeting

/-- What a node holds about the other one: nothing, an entry of its own dial before and after it
is pending, a pending entry with the id of the other node, or an active one. -/
inductive Entry
  | absent
  | connecting
  | dialled
  | known (outbound : Bool)
  | active
  deriving DecidableEq, Repr

/-- How far a dial is. -/
inductive Dial
  | idle
  | check
  | connect
  | insert
  | send
  | done
  deriving DecidableEq, Repr

/-- What a node is about to do for the message it handles. -/
inductive Stage
  | aside
  | greet
  | record (outbound : Bool)
  | hello
  | bits
  | opening
  | reply
  deriving DecidableEq, Repr

/-- A node: its entry, its dial and its handler, and whether it has sent and taken a handshake
and a bitfield. -/
structure View where
  entry : Entry
  dial : Dial
  stage : Stage
  hello : Bool
  bits : Bool
  heard : Bool
  seen : Bool
  deriving DecidableEq, Repr

namespace View

/-- A node at its start. -/
def new : View := ⟨.absent, .idle, .aside, false, false, false, false⟩

/-- Whether the entry is pending and was dialled. -/
def outbound (v : View) : Bool := v.entry == .dialled || v.entry == .known true

/-- Whether the id of the other node is known. -/
def greeted (v : View) : Bool :=
  match v.entry with
  | .known _ | .active => true
  | _ => false

/-- Whether the node answers a handshake like one that has not dialled. -/
def answers (v : View) : Bool := v.entry == .known false || v.stage == .record false

end View

/-- A known id is pending, or its entry is active. -/
theorem entry_of_greeted {v : View} (h : v.greeted = true) :
    v.entry = .known v.outbound ∨ v.entry = .active := by
  unfold View.greeted at h
  unfold View.outbound
  cases hentry : v.entry with
  | known b => cases b <;> exact Or.inl rfl
  | active => exact Or.inr rfl
  | _ => simp [hentry] at h

/-- One step of a node. -/
inductive Step (other : View) : View → View → Prop
  | stay (v : View) : Step other v v
  | start {v : View} (h : v.dial = .idle) : Step other v { v with dial := .check }
  | skip {v : View} (h : v.dial = .check) : Step other v { v with dial := .done }
  | enter {v : View} (h : v.dial = .check) (he : v.entry = .absent) :
      Step other v { v with entry := .connecting, dial := .connect }
  | connect {v : View} (h : v.dial = .connect) : Step other v { v with dial := .insert }
  | insert {v : View} (h : v.dial = .insert) (he : v.entry = .connecting) :
      Step other v { v with entry := .dialled, dial := .send }
  | call {v : View} (h : v.dial = .send) : Step other v { v with dial := .done, hello := true }
  | hear {v : View} (h : v.stage = .aside) (ho : other.hello = true) :
      Step other v { v with stage := .greet, heard := true }
  | see {v : View} (h : v.stage = .aside) (hv : v.heard = true) (ho : other.bits = true) :
      Step other v { v with stage := .opening, seen := true }
  | ignore {v : View} (h : v.stage = .greet ∨ v.stage = .opening) (he : v.entry = .active) :
      Step other v { v with stage := .aside }
  | read {v : View} (h : v.stage = .greet) (he : v.entry ≠ .active) :
      Step other v { v with stage := .record v.outbound }
  | record {v : View} {b : Bool} (h : v.stage = .record b) :
      Step other v { v with entry := .known b, stage := if b then .bits else .hello }
  | hello {v : View} (h : v.stage = .hello) :
      Step other v { v with stage := .aside, hello := true }
  | bits {v : View} (h : v.stage = .bits) (hd : v.dial ≠ .send) :
      Step other v { v with stage := .aside, bits := true }
  | opened {v : View} {b : Bool} (h : v.stage = .opening) (he : v.entry = .known b) :
      Step other v { v with entry := .active, stage := if b then .aside else .reply }
  | reply {v : View} (h : v.stage = .reply) :
      Step other v { v with stage := .aside, bits := true }

/-! ## One node -/

/-- What a node has sent by the time it holds an entry, and what it holds by the time it has
handled a message. -/
structure Steady (v : View) : Prop where
  fresh : v.entry = .absent ∨ v.entry = .connecting → v.hello = false ∧ v.dial ≠ .send
  dialled : v.outbound = true → v.hello = true ∨ v.dial = .send
  answered : v.entry = .known false → v.hello = true ∨ v.stage = .hello
  active : v.entry = .active → v.hello = true ∨ v.dial = .send
  sent : v.entry = .known true → v.bits = true ∨ v.stage = .bits
  replied : v.entry = .active → v.bits = true ∨ v.stage = .reply
  recording : ∀ b, v.stage = .record b → v.entry ≠ .active ∧
    (b = true → v.hello = true ∨ v.dial = .send)
  greeting : v.stage = .hello → v.entry = .known false
  answering : v.stage = .bits → v.entry = .known true
  opening : v.stage = .opening → v.greeted = true
  replying : v.stage = .reply → v.entry = .active ∧ v.hello = true
  heard : v.heard = true → v.greeted = true ∨ v.stage = .greet ∨ ∃ b, v.stage = .record b
  hears : v.greeted = true ∨ v.stage = .greet ∨ (∃ b, v.stage = .record b) → v.heard = true
  seen : v.seen = true → v.entry = .active ∨ v.stage = .opening

/-- A node starts steady. -/
theorem steady_new : Steady .new := by
  constructor <;> simp [View.new, View.outbound, View.greeted]

namespace Steady

variable {v : View}

/-- A dial that has not come to its handshake may go on, or end. -/
theorem setDial (hv : Steady v) {d : Dial} (h : v.dial ≠ .send) (hd : d ≠ .send) :
    Steady { v with dial := d } :=
  { hv with
    fresh := fun he => ⟨(hv.fresh he).1, hd⟩
    dialled := fun ho => Or.inl ((hv.dialled ho).resolve_right h)
    active := fun he => Or.inl ((hv.active he).resolve_right h)
    recording := fun b hb =>
      ⟨(hv.recording b hb).1, fun ht => Or.inl (((hv.recording b hb).2 ht).resolve_right h)⟩ }

/-- A dial may write an entry that no handler has to do with. -/
theorem setEntry (hv : Steady v) (he : v.entry = .absent ∨ v.entry = .connecting) {e : Entry}
    {d : Dial} (hnew : e = .connecting ∧ d ≠ .send ∨ e = .dialled ∧ d = .send) :
    Steady { v with entry := e, dial := d } := by
  obtain ⟨hhello, hdial⟩ := hv.fresh he
  have hgreeted : v.greeted ≠ true := by
    unfold View.greeted
    rcases he with he | he <;> rw [he] <;> nofun
  have hnot : (∀ b, v.entry ≠ .known b) ∧ v.entry ≠ .active := by
    rcases he with he | he <;> rw [he] <;> exact ⟨nofun, nofun⟩
  have hnot' : (∀ b, e ≠ .known b) ∧ e ≠ .active := by
    rcases hnew with ⟨rfl, _⟩ | ⟨rfl, _⟩ <;> exact ⟨nofun, nofun⟩
  have hgreeted' : View.greeted { v with entry := e, dial := d } ≠ true := by
    rcases hnew with ⟨rfl, _⟩ | ⟨rfl, _⟩ <;> nofun
  exact {
    fresh := by
      rintro he'
      rcases hnew with ⟨_, hd⟩ | ⟨rfl, _⟩
      · exact ⟨hhello, hd⟩
      · rcases he' with he' | he' <;> contradiction
    dialled := by
      intro ho
      rcases hnew with ⟨rfl, _⟩ | ⟨_, hd⟩
      · contradiction
      · exact Or.inr hd
    answered := fun h => absurd h (hnot'.1 false)
    active := fun h => absurd h hnot'.2
    sent := fun h => absurd h (hnot'.1 true)
    replied := fun h => absurd h hnot'.2
    recording := by
      refine fun b hb => ⟨hnot'.2, fun ht => ?_⟩
      rcases (hv.recording b hb).2 ht with h | h
      · cases hhello.symm.trans h
      · contradiction
    greeting := fun h => absurd (hv.greeting h) (hnot.1 false)
    answering := fun h => absurd (hv.answering h) (hnot.1 true)
    opening := fun h => absurd (hv.opening h) hgreeted
    replying := fun h => absurd (hv.replying h).1 hnot.2
    heard := fun h => Or.inr ((hv.heard h).resolve_left hgreeted)
    hears := fun h => hv.hears (Or.inr (h.resolve_left hgreeted'))
    seen := by
      intro h
      rcases hv.seen h with h | h
      · exact absurd h hnot.2
      · exact absurd (hv.opening h) hgreeted }

/-- What a node with a handler that does not send has sent. -/
theorem settled (hv : Steady v) (h : v.stage ≠ .hello ∧ v.stage ≠ .bits ∧ v.stage ≠ .reply) :
    (v.entry = .known false → v.hello = true) ∧ (v.entry = .known true → v.bits = true) ∧
      (v.entry = .active → v.bits = true) :=
  ⟨fun he => (hv.answered he).resolve_right h.1, fun he => (hv.sent he).resolve_right h.2.1,
    fun he => (hv.replied he).resolve_right h.2.2⟩

end Steady

/-- A handler that takes or ignores a message, or reads the entry, leaves what was sent. -/
theorem Steady.setStage {v : View} (hv : Steady v)
    (h : v.stage = .aside ∨ v.stage = .greet ∨ v.stage = .opening) {stage : Stage}
    {heard seen : Bool} (hstage : stage ≠ .hello ∧ stage ≠ .bits ∧ stage ≠ .reply)
    (hrecord : ∀ b, stage = .record b →
      v.entry ≠ .active ∧ (b = true → v.hello = true ∨ v.dial = .send))
    (hopening : stage = .opening → v.greeted = true)
    (hheard : heard = true ↔ v.greeted = true ∨ stage = .greet ∨ ∃ b, stage = .record b)
    (hseen : seen = true → v.entry = .active ∨ stage = .opening) :
    Steady { v with stage := stage, heard := heard, seen := seen } := by
  obtain ⟨hhello, hsent, hreplied⟩ := hv.settled (by
    rcases h with h | h | h <;> rw [h] <;> exact ⟨nofun, nofun, nofun⟩)
  exact { hv with
    answered := fun he => Or.inl (hhello he)
    sent := fun he => Or.inl (hsent he)
    replied := fun he => Or.inl (hreplied he)
    recording := hrecord
    greeting := fun h => absurd h hstage.1
    answering := fun h => absurd h hstage.2.1
    opening := hopening
    replying := fun h => absurd h hstage.2.2
    heard := hheard.mp
    hears := hheard.mpr
    seen := hseen }

/-- A handler ends with what it had to send. -/
theorem Steady.finish {v : View} (hv : Steady v) (hg : v.greeted = true) (h : v.stage ≠ .opening)
    {hello bits : Bool} (hhello : v.hello = true → hello = true)
    (hanswered : v.entry = .known false → hello = true)
    (hsent : v.entry = .known true ∨ v.entry = .active → bits = true) :
    Steady { v with stage := .aside, hello := hello, bits := bits } where
  fresh := by
    intro he
    unfold View.greeted at hg
    rcases he with he | he <;> rw [he] at hg <;> contradiction
  dialled := fun ho => (hv.dialled ho).imp_left hhello
  answered := fun he => Or.inl (hanswered he)
  active := fun he => (hv.active he).imp_left hhello
  sent := fun he => Or.inl (hsent (Or.inl he))
  replied := fun he => Or.inl (hsent (Or.inr he))
  recording := nofun
  greeting := nofun
  answering := nofun
  opening := nofun
  replying := nofun
  heard := fun _ => Or.inl hg
  hears := fun _ => hv.hears (Or.inl hg)
  seen := fun hs => Or.inl ((hv.seen hs).resolve_right h)

/-- Every step of a greeting keeps a node steady. -/
theorem Step.steady {other v v' : View} (h : Step other v v') (hv : Steady v) : Steady v' := by
  have hseen : ∀ {stage : Stage}, v.stage ≠ .opening → v.seen = true →
      v.entry = .active ∨ stage = .opening :=
    fun hne hs => Or.inl ((hv.seen hs).resolve_right hne)
  cases h with
  | stay => exact hv
  | start h | skip h | connect h => exact hv.setDial (by rw [h]; nofun) nofun
  | enter h he => exact hv.setEntry (Or.inl he) (Or.inl ⟨rfl, nofun⟩)
  | insert h he => exact hv.setEntry (Or.inr he) (Or.inr ⟨rfl, rfl⟩)
  | call h =>
    exact { hv with
      fresh := fun he => absurd h (hv.fresh he).2
      dialled := fun _ => Or.inl rfl
      answered := fun _ => Or.inl rfl
      active := fun _ => Or.inl rfl
      recording := fun b hb => ⟨(hv.recording b hb).1, fun _ => Or.inl rfl⟩
      replying := fun hs => ⟨(hv.replying hs).1, rfl⟩ }
  | hear h hhello =>
    exact hv.setStage (Or.inl h) ⟨nofun, nofun, nofun⟩ nofun nofun
      ⟨fun _ => Or.inr (Or.inl rfl), fun _ => rfl⟩ (hseen (by rw [h]; nofun))
  | see h hheard hbits =>
    have hgreeted : v.greeted = true := by
      rcases hv.heard hheard with hg | hs | ⟨b, hs⟩
      · exact hg
      · cases h.symm.trans hs
      · cases h.symm.trans hs
    exact hv.setStage (Or.inl h) ⟨nofun, nofun, nofun⟩ nofun (fun _ => hgreeted)
      ⟨fun _ => Or.inl hgreeted, fun _ => hheard⟩ fun _ => Or.inr rfl
  | ignore h he =>
    have hgreeted : v.greeted = true := by rw [View.greeted, he]
    exact hv.setStage (Or.inr h) ⟨nofun, nofun, nofun⟩ nofun nofun
      ⟨fun _ => Or.inl hgreeted, fun _ => hv.hears (Or.inl hgreeted)⟩ fun _ => Or.inl he
  | read h he =>
    refine hv.setStage (Or.inr (Or.inl h)) ⟨nofun, nofun, nofun⟩ ?_ nofun
      ⟨fun _ => Or.inr (Or.inr ⟨_, rfl⟩), fun _ => hv.hears (Or.inr (Or.inl h))⟩
      (hseen (by rw [h]; nofun))
    rintro b ⟨rfl⟩
    exact ⟨he, hv.dialled⟩
  | record h =>
    rename_i b
    obtain ⟨hactive, hcalled⟩ := hv.recording b h
    have hheard : v.heard = true := hv.hears (Or.inr (Or.inr ⟨b, h⟩))
    have hnever : v.seen ≠ true := by
      intro hs
      rcases hv.seen hs with hs | hs
      · contradiction
      · cases h.symm.trans hs
    cases b with
    | true =>
      exact ⟨nofun, fun _ => hcalled rfl, nofun, nofun, fun _ => Or.inr rfl, nofun, nofun, nofun,
        fun _ => rfl, nofun, nofun, fun _ => Or.inl rfl, fun _ => hheard,
        fun hs => absurd hs hnever⟩
    | false =>
      exact ⟨nofun, nofun, fun _ => Or.inr rfl, nofun, nofun, nofun, nofun, fun _ => rfl, nofun,
        nofun, nofun, fun _ => Or.inl rfl, fun _ => hheard, fun hs => absurd hs hnever⟩
  | hello h =>
    have hentry := hv.greeting h
    refine hv.finish (by rw [View.greeted, hentry]) (by rw [h]; nofun) (fun _ => rfl)
      (fun _ => rfl) ?_
    rintro (he | he) <;> cases hentry.symm.trans he
  | bits h hd =>
    have hentry := hv.answering h
    refine hv.finish (by rw [View.greeted, hentry]) (by rw [h]; nofun) id ?_ fun _ => rfl
    intro he
    cases hentry.symm.trans he
  | opened h he =>
    rename_i b
    obtain ⟨hhello, hsent, _⟩ := hv.settled (by rw [h]; exact ⟨nofun, nofun, nofun⟩)
    have hheard : v.heard = true := hv.hears (Or.inl (hv.opening h))
    -- who has dialled has sent its bitfield before, and anybody else replies with it
    cases b with
    | true =>
      have hcalled := hv.dialled (by rw [View.outbound, he]; rfl)
      exact ⟨nofun, nofun, nofun, fun _ => hcalled, nofun, fun _ => Or.inl (hsent he), nofun,
        nofun, nofun, nofun, nofun, fun _ => Or.inl rfl, fun _ => hheard, fun _ => Or.inl rfl⟩
    | false =>
      exact ⟨nofun, nofun, nofun, fun _ => Or.inl (hhello he), nofun, fun _ => Or.inr rfl, nofun,
        nofun, nofun, nofun, fun _ => ⟨rfl, hhello he⟩, fun _ => Or.inl rfl, fun _ => hheard,
        fun _ => Or.inl rfl⟩
  | reply h =>
    obtain ⟨hentry, hhello⟩ := hv.replying h
    exact hv.finish (by rw [View.greeted, hentry]) (by rw [h]; nofun) id (fun _ => hhello)
      fun _ => rfl

/-! ## Two nodes -/

/-- What one of two nodes has taken was sent by the other one, and when one of them answers a
handshake without having dialled, the other one has dialled. -/
structure Agrees (v other : View) : Prop where
  heard : v.heard = true → other.hello = true
  seen : v.seen = true → other.bits = true
  answers : v.answers = true →
    other.answers = false ∧ (other.outbound = true ∨ other.entry = .active)

/-- The two nodes of a link. -/
structure Linked (v : Bool → View) : Prop where
  steady : ∀ x, Steady (v x)
  agrees : ∀ x, Agrees (v x) (v !x)

/-- Two new nodes are linked. -/
theorem linked_new : Linked fun _ => .new where
  steady := fun _ => steady_new
  agrees := fun _ => ⟨nofun, nofun, nofun⟩

/-- A node starts to answer only while the other node waits for the answer to its dial. -/
theorem Steady.outbound_of_heard {v other : View} (hv : Steady v) (ho : Steady other)
    (h : Agrees v other) (h' : Agrees other v) (hstage : v.stage = .greet)
    (hfresh : v.hello = false) : other.answers = false ∧ other.outbound = true := by
  have hhello : other.hello = true := h.heard (hv.hears (Or.inr (Or.inl hstage)))
  have hheard : other.heard ≠ true := by
    intro hheard
    cases (h'.heard hheard).symm.trans hfresh
  have hgreeted : other.greeted ≠ true := fun hne => hheard (ho.hears (Or.inl hne))
  have hrecord : other.stage ≠ .record false :=
    fun hne => hheard (ho.hears (Or.inr (Or.inr ⟨false, hne⟩)))
  have hentry : other.entry = .dialled := by
    unfold View.greeted at hgreeted
    cases hentry : other.entry with
    | absent => cases hhello.symm.trans (ho.fresh (Or.inl hentry)).1
    | connecting => cases hhello.symm.trans (ho.fresh (Or.inr hentry)).1
    | dialled => rfl
    | known b => simp [hentry] at hgreeted
    | active => simp [hentry] at hgreeted
  exact ⟨by simp [View.answers, hentry, hrecord], by simp [View.outbound, hentry]⟩

/-- What a step of a node leaves of what it has with the other one. -/
theorem Step.agrees {other v v' : View} (h : Step other v v') (hv : Steady v) (ho : Steady other)
    (hagrees : Agrees v other) (hagrees' : Agrees other v) : Agrees v' other := by
  obtain ⟨h1, h2, h3⟩ := hagrees
  cases h with
  | stay => exact ⟨h1, h2, h3⟩
  | hear h hhello => exact ⟨fun _ => hhello, h2, fun ha => h3 (by simp_all [View.answers])⟩
  | see h hheard hbits => exact ⟨h1, fun _ => hbits, fun ha => h3 (by simp_all [View.answers])⟩
  | read h he =>
    refine ⟨h1, h2, fun ha => ?_⟩
    by_cases hknown : v.entry = .known false
    · exact h3 (by simp [View.answers, hknown])
    · have hfresh : v.hello = false := by
        have hfirst := hv.fresh
        cases hentry : v.entry with
        | absent => exact (hfirst (Or.inl hentry)).1
        | connecting => exact (hfirst (Or.inr hentry)).1
        | dialled => simp [View.answers, View.outbound, hentry] at ha
        | known b => cases b <;> simp_all [View.answers, View.outbound]
        | active => contradiction
      have hout := hv.outbound_of_heard ho ⟨h1, h2, h3⟩ hagrees' h hfresh
      exact ⟨hout.1, Or.inl hout.2⟩
  | record h =>
    rename_i b
    refine ⟨h1, h2, fun ha => h3 ?_⟩
    cases b <;> simp_all [View.answers]
  | opened h he =>
    rename_i b
    refine ⟨h1, h2, fun ha => ?_⟩
    cases b <;> simp [View.answers] at ha
  | _ => exact ⟨h1, h2, fun ha => h3 (by simp_all [View.answers])⟩

/-- What it leaves of what the other one has with it. -/
theorem Step.agrees_other {other v v' : View} (h : Step other v v') (hagrees : Agrees other v) :
    Agrees other v' := by
  obtain ⟨h1, h2, h3⟩ := hagrees
  -- a handler that does not write the entry and does not read it
  have hquiet : ∀ {stage : Stage}, stage ≠ .record false → other.answers = true →
      (v.entry == .known false || stage == .record false) = false ∧
        (v.outbound = true ∨ v.entry = .active) := by
    intro stage hstage ha
    obtain ⟨hanswers, hout⟩ := h3 ha
    refine ⟨?_, hout⟩
    rw [View.answers, Bool.or_eq_false_iff] at hanswers
    rw [hanswers.1, Bool.false_or, beq_eq_false_iff_ne]
    exact hstage
  cases h with
  | stay => exact ⟨h1, h2, h3⟩
  | start | skip | connect => exact ⟨h1, h2, h3⟩
  | call => exact ⟨fun _ => rfl, h2, h3⟩
  | enter _ he | insert _ he =>
    refine ⟨h1, h2, fun ha => ?_⟩
    have hout := (h3 ha).2
    simp [View.outbound, he] at hout
  | hear | see | ignore => exact ⟨h1, h2, hquiet nofun⟩
  | hello => exact ⟨fun _ => rfl, h2, hquiet nofun⟩
  | bits | reply => exact ⟨h1, fun _ => rfl, hquiet nofun⟩
  | read h he =>
    refine ⟨h1, h2, fun ha => hquiet ?_ ha⟩
    rw [(h3 ha).2.resolve_right he]
    nofun
  | record h =>
    rename_i b
    refine ⟨h1, h2, fun ha => ?_⟩
    have hanswers := (h3 ha).1
    cases b with
    | true => exact ⟨rfl, Or.inl rfl⟩
    | false => simp [View.answers, h] at hanswers
  | opened h he =>
    rename_i b
    refine ⟨h1, h2, fun _ => ⟨?_, Or.inr rfl⟩⟩
    cases b <;> rfl

/-- Every step of one of the nodes keeps them linked. -/
theorem Step.linked {v : Bool → View} {x : Bool} {u : View} (h : Step (v !x) (v x) u)
    (hv : Linked v) : Linked (Function.update v x u) := by
  have hother : Function.update v x u (!x) = v !x := Function.update_of_ne (by simp) ..
  have hagrees := h.agrees (hv.steady x) (hv.steady !x) (hv.agrees x) (by simpa using hv.agrees !x)
  have hagrees' : Agrees (v !x) u :=
    h.agrees_other (by simpa using hv.agrees !x)
  constructor
  · intro y
    by_cases hy : y = x
    · subst hy
      simpa using h.steady (hv.steady y)
    · simpa [hy] using hv.steady y
  · intro y
    by_cases hy : y = x
    · subst hy
      simpa [hother] using hagrees
    · cases Bool.eq_not_of_ne hy
      simpa [hother] using hagrees'

/-! ## At rest -/

/-- Nothing is under way between the two nodes. -/
structure AtRest (v : Bool → View) : Prop extends Linked v where
  idle : ∀ x, (v x).stage = .aside
  called : ∀ x, (v x).dial ≠ .send
  heard : ∀ x, (v x).hello = true → (v !x).heard = true
  seen : ∀ x, (v x).bits = true → (v !x).seen = true

namespace AtRest

variable {v : Bool → View} {x : Bool}

/-- A handshake that was sent has been recorded. -/
theorem greeted_of_hello (hv : AtRest v) (h : (v x).hello = true) : (v !x).greeted = true := by
  rcases (hv.steady !x).heard (hv.heard x h) with h | h | ⟨b, h⟩
  · exact h
  · cases h.symm.trans (hv.idle !x)
  · cases h.symm.trans (hv.idle !x)

/-- Who has recorded a handshake has sent one. -/
theorem hello_of_greeted (hv : AtRest v) (h : (v x).greeted = true) : (v x).hello = true := by
  have hs := hv.steady x
  rcases entry_of_greeted h with hentry | hentry
  · cases hout : (v x).outbound with
    | true => exact (hs.dialled hout).resolve_right (hv.called x)
    | false => exact (hs.answered (hout ▸ hentry)).resolve_right (by simp [hv.idle])
  · exact (hs.active hentry).resolve_right (hv.called x)

/-- A bitfield that was sent has made its receiver active. -/
theorem active_of_bits (hv : AtRest v) (h : (v x).bits = true) : (v !x).entry = .active :=
  ((hv.steady !x).seen (hv.seen x h)).resolve_right (by simp [hv.idle])

/-- Who is active has sent its bitfield. -/
theorem bits_of_active (hv : AtRest v) (h : (v x).entry = .active) : (v x).bits = true :=
  ((hv.steady x).replied h).resolve_right (by simp [hv.idle])

/-- So has who has dialled and recorded a handshake. -/
theorem bits_of_outbound (hv : AtRest v) (h : (v x).outbound = true) (hg : (v x).greeted = true) :
    (v x).bits = true := by
  rcases entry_of_greeted hg with hentry | hentry
  · exact ((hv.steady x).sent (h ▸ hentry)).resolve_right (by simp [hv.idle])
  · exact hv.bits_of_active hentry

/-- When a handshake was sent, both nodes are active. -/
theorem active (hv : AtRest v) (hsent : ∃ x, (v x).hello = true) (x : Bool) :
    (v x).entry = .active := by
  have hall : ∀ y, (v y).greeted = true := by
    obtain ⟨y, hy⟩ := hsent
    have hother : (v !y).greeted = true := hv.greeted_of_hello hy
    have hself : (v !!y).greeted = true := hv.greeted_of_hello (hv.hello_of_greeted hother)
    rw [Bool.not_not] at hself
    intro z
    by_cases hz : z = y
    · exact hz ▸ hself
    · exact Bool.eq_not_of_ne hz ▸ hother
  have hback : ∀ y, (v y).bits = true → (v y).entry = .active := by
    intro y hy
    have hreturn := hv.active_of_bits (hv.bits_of_active (hv.active_of_bits hy))
    rwa [Bool.not_not] at hreturn
  rcases entry_of_greeted (hall x) with hentry | hentry
  · cases hout : (v x).outbound with
    | true => exact hback x (hv.bits_of_outbound hout (hall x))
    | false =>
      have hanswers : (v x).answers = true := by simp [View.answers, hentry, hout]
      have hbits : (v !x).bits = true := by
        rcases ((hv.agrees x).answers hanswers).2 with hout | hactive
        · exact hv.bits_of_outbound hout (hall !x)
        · exact hv.bits_of_active hactive
      have hactive := hv.active_of_bits hbits
      rwa [Bool.not_not] at hactive
  · exact hentry

end AtRest

end Bqti.Session.Peers.Greeting
