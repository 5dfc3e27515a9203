import Bqti.Session.Peers.Step

/-!
# Flags and what was announced

`am_choking` and `am_interested` should say what the peer was last told. A handler writes the
flag first and sends the message in a later step; a broadcast sends and writes no flag; a choke
of the peer, or a lost interest in it, writes the flag and sends nothing. The flag mirrors the
messages as long as the last two change nothing, and no two handlers cross each other.
-/

namespace Bqti.Session.Peers

open Bqti.Core Bqti.Dht Bqti.Torrent
open Bqti.Session.Routing (StandardMessage SessionManager)

variable {D P S A : Type*}

/-- The two flags of our own. -/
inductive Flag
  | choking
  | interested
  deriving DecidableEq, Repr

/-- The value of a flag in a new pipeline. -/
def Flag.initial : Flag → Bool
  | .choking => true
  | .interested => false

/-- The value of a flag. -/
def Pipeline.flag (p : Pipeline D A) : Flag → Bool
  | .choking => p.amChoking
  | .interested => p.amInterested

/-- What a message tells the peer. -/
def announces : StandardMessage → Option (Flag × Bool)
  | .choke => some (.choking, true)
  | .unchoke => some (.choking, false)
  | .interested => some (.interested, true)
  | .notInterested => some (.interested, false)
  | _ => none

/-- What the peer was last told since its pipeline was opened. -/
def lastAnnounced (f : Flag) : List Event → Bool
  | [] => f.initial
  | .opened :: _ => f.initial
  | .sent message :: events =>
      match announces message with
      | some (g, v) => if g = f then v else lastAnnounced f events
      | none => lastAnnounced f events
  | _ :: events => lastAnnounced f events

namespace Pc

/-- The flag that a step writes, its new value, and whether a message follows. -/
def writes (s : TorrentSession D A) : Pc A → Option (Nat × Flag × Bool × Bool)
  | .interestEval pipe ourBitfield =>
      (s.pipelines[pipe]?).map fun p =>
        let interested := (p.evaluateInterest ourBitfield).1
        (pipe, .interested, interested, interested)
  | .chokeInterest pipe => some (pipe, .interested, false, false)
  | .interestedUnchoke pipe => some (pipe, .choking, false, true)
  | .notInterestedChoke pipe => some (pipe, .choking, true, true)
  | _ => none

/-- Whom a step tells what, and the pipeline whose flag was written for it. -/
def tells (a : A) : Pc A → Choice → Option (A × (Flag × Bool) × Option Nat)
  | .sending message flagOf _, .go => (announces message).map fun e => (a, e, flagOf)
  | .announceSend announcement targets, .target j true =>
      (targets[j]?).bind fun b => (announces announcement.message).map fun e => (b, e, none)
  | _, _ => none

end Pc

section Flags

variable [DecidableEq A]

/-- A flag is written only when no handler is about to announce its other value; when no
message follows, only when it has that value already. -/
def writesInTurn (s : System D A) (pc : Pc A) : Bool :=
  match pc.writes s.session with
  | none => true
  | some (pipe, f, v, true) =>
      s.tasks.all fun t => t.pc.flagged.all fun (i, message) =>
        i != pipe || announces message != some (f, !v)
  | some (pipe, f, v, false) => (s.session.pipelines[pipe]?).all fun p => p.flag f == v

/-- An active peer is told what its flag says, or by the handler that has just written the flag
of its pipeline. -/
def tellsFlag (s : TorrentSession D A) (a : A) (pc : Pc A) (choice : Choice) : Bool :=
  match pc.tells a choice with
  | none => true
  | some (b, (f, v), flagOf) =>
      match s.getPipeline b with
      | none => true
      | some i => flagOf == some i || (s.pipelines[i]?).all fun p => p.flag f == v

/-- Both conditions. -/
def keepsFlags (s : System D A) : Label A → Bool
  | .task k choice =>
      match s.tasks[k]? with
      | none => true
      | some t => writesInTurn s t.pc && tellsFlag s.session t.source t.pc choice
  | _ => true

variable {host : Host D P S} {s s' : System D A} {l : Label A}

/-! ## One step of a task -/

section Task

variable {u u' : TorrentSession D A} {a : A} {pc pc' : Pc A} {choice : Choice} {i : Nat}
  {p' : Pipeline D A} {f : Flag}

/-- A task gets hold of a pipeline by looking up its address. -/
theorem Act.pipe (h : Act host u a pc choice u' pc') (hi : pc'.pipe = some i) :
    pc.pipe = some i ∨ u.peer a = some (.active i) := by
  cases h with
  | read h | touched _ _ h => exact h.pipe i hi
  | routed h =>
    rename_i message
    rcases h with ⟨rfl, _⟩ | rfl
    · cases (Pc.handle_empty message).1.symm.trans hi
    · contradiction
  | greeted | opened | sent => split at hi <;> contradiction
  | evaluated =>
    split at hi
    · exact Or.inl hi
    · contradiction
  | adopted h =>
    cases hi
    exact Or.inr (TorrentSession.getPipeline_eq_some.mp h)
  | haveUnlocked =>
    rename_i pipe index complete batch
    rcases Pc.afterHave_cases pipe index batch complete with h | h | h <;> rw [h] at hi
    · contradiction
    · contradiction
    · exact Or.inl hi
  | emptied | unchoked | choked | repeated | added | cleared | haveLocked | haveSent =>
    exact Or.inl hi
  | _ => contradiction

/-- A handler that is about to send for a flag sends or gives up the peer. -/
theorem Act.flagged_next (h : Act host u a pc choice u' pc') {message : StandardMessage}
    (hf : pc.flagged = some (i, message)) :
    (choice = .go ∧ u' = u.send a message) ∨ (u' = u ∧ pc' = .terminate) := by
  cases h with
  | read h | touched _ _ h =>
    rw [h.notFlagged] at hf
    contradiction
  | removed h => rcases h with rfl | rfl <;> contradiction
  | sent =>
    rename_i flagOf _
    cases flagOf with
    | none => contradiction
    | some j =>
      cases hf
      exact Or.inl ⟨rfl, rfl⟩
  | lost => exact Or.inr ⟨rfl, rfl⟩
  | _ => contradiction

/-- A task that gives up its peer removes the entry. -/
theorem Act.terminate_next (h : Act host u a .terminate choice u' pc') : u'.peer a = none := by
  cases h with
  | read h => exact absurd rfl h.stays.1
  | touched _ _ h => exact absurd rfl h.stays.1
  | removed h => simp

/-- What becomes of the flags of a pipeline: they stay, the pipeline is new, or one of them is
written. -/
theorem Act.flag_cases (h : Act host u a pc choice u' pc') (hi : u'.pipelines[i]? = some p') :
    (∃ p, u.pipelines[i]? = some p ∧ ∀ f, p'.flag f = p.flag f) ∨
      (i = u.pipelines.length ∧ ∀ f, p'.flag f = f.initial) ∨
      ∃ p f v follows, u.pipelines[i]? = some p ∧ pc.writes u = some (i, f, v, follows) ∧
        p'.flag f = v ∧ (∀ g, g ≠ f → p'.flag g = p.flag g) ∧
        (follows = true → ∃ message, pc'.flagged = some (i, message) ∧
          announces message = some (f, v)) := by
  have hsame : ∀ {k : Nat} {q q' : Pipeline D A}, u.pipelines[k]? = some q →
      (u.pipelines.set k q')[i]? = some p' → (∀ f, q'.flag f = q.flag f) →
      ∃ p, u.pipelines[i]? = some p ∧ ∀ f, p'.flag f = p.flag f := by
    intro k q q' hk hi' hq
    rcases of_getElem?_set hi' with ⟨rfl, rfl⟩ | ⟨_, hold⟩
    · exact ⟨q, hk, hq⟩
    · exact ⟨p', hold, fun _ => rfl⟩
  have hwrite : ∀ {k : Nat} {q q' : Pipeline D A} {f : Flag} {v follows : Bool},
      u.pipelines[k]? = some q → (u.pipelines.set k q')[i]? = some p' →
      pc.writes u = some (k, f, v, follows) → q'.flag f = v →
      (∀ g, g ≠ f → q'.flag g = q.flag g) →
      (follows = true → ∃ message, pc'.flagged = some (k, message) ∧
        announces message = some (f, v)) →
      (∃ p, u.pipelines[i]? = some p ∧ ∀ f, p'.flag f = p.flag f) ∨
        (i = u.pipelines.length ∧ ∀ f, p'.flag f = f.initial) ∨
        ∃ p f v follows, u.pipelines[i]? = some p ∧ pc.writes u = some (i, f, v, follows) ∧
          p'.flag f = v ∧ (∀ g, g ≠ f → p'.flag g = p.flag g) ∧
          (follows = true → ∃ message, pc'.flagged = some (i, message) ∧
            announces message = some (f, v)) := by
    intro k q q' f v follows hk hi' hwrites hnew hother hfollows
    rcases of_getElem?_set hi' with ⟨rfl, rfl⟩ | ⟨_, hold⟩
    · exact Or.inr (Or.inr ⟨q, f, v, follows, hk, hwrites, hnew, hother, hfollows⟩)
    · exact Or.inl ⟨p', hold, fun _ => rfl⟩
  cases h with
  | touched hp _ _ hq =>
    refine Or.inl (hsame hp hi fun f => ?_)
    cases f with
    | choking => exact hq.2.1
    | interested => exact hq.2.2.1
  | emptied hp | filled hp | cleared hp =>
    exact Or.inl (hsame hp hi fun f => by cases f <;> rfl)
  | opened =>
    rcases of_getElem?_concat hi with hold | ⟨rfl, rfl⟩
    · exact Or.inl ⟨p', hold, fun _ => rfl⟩
    · exact Or.inr (Or.inl ⟨rfl, fun f => by cases f <;> rfl⟩)
  | evaluated hp =>
    rename_i pipe q ourBitfield
    have hwrites : (Pc.interestEval pipe ourBitfield).writes u = some (pipe, .interested,
        (q.evaluateInterest ourBitfield).1, (q.evaluateInterest ourBitfield).1) := by
      simp [Pc.writes, hp]
    refine hwrite hp hi hwrites rfl ?_ ?_
    · intro g hg
      cases g <;> first | rfl | contradiction
    · intro hfollows
      rw [if_pos hfollows, hfollows]
      exact ⟨.interested, rfl, rfl⟩
  | uninterested hp =>
    refine hwrite (f := .interested) hp hi rfl rfl ?_ nofun
    intro g hg
    cases g <;> first | rfl | contradiction
  | unchoked hp =>
    refine hwrite (f := .choking) hp hi rfl rfl ?_ fun _ => ⟨.unchoke, rfl, rfl⟩
    intro g hg
    cases g <;> first | rfl | contradiction
  | choked hp =>
    refine hwrite (f := .choking) hp hi rfl rfl ?_ fun _ => ⟨.choke, rfl, rfl⟩
    intro g hg
    cases g <;> first | rfl | contradiction
  | _ => exact Or.inl ⟨p', hi, fun _ => rfl⟩

/-- A handler gets to announce a flag by writing it. -/
theorem Act.flagged_new (h : Act host u a pc choice u' pc') {message : StandardMessage} {v : Bool}
    (hf : pc'.flagged = some (i, message)) (hm : announces message = some (f, v)) :
    ∃ p, u'.pipelines[i]? = some p ∧ p.flag f = v := by
  have hset : ∀ {k : Nat} {q q' : Pipeline D A}, u.pipelines[k]? = some q → q'.flag f = v →
      ∃ p, (u.setPipeline k q').pipelines[k]? = some p ∧ p.flag f = v := by
    intro k q q' hk hq
    exact ⟨q', List.getElem?_set_self (List.getElem?_eq_some_iff.mp hk).1, hq⟩
  cases h with
  | read h | touched _ _ h =>
    rw [h.flagged] at hf
    contradiction
  | routed h =>
    rename_i message
    rcases h with ⟨rfl, _⟩ | rfl
    · cases (Pc.handle_empty message).2.1.symm.trans hf
    · contradiction
  | greeted | opened | sent => split at hf <;> contradiction
  | haveUnlocked =>
    rename_i pipe index complete batch
    rcases Pc.afterHave_cases pipe index batch complete with h | h | h <;> rw [h] at hf <;>
      contradiction
  | evaluated hp =>
    split at hf
    · rename_i hinterested
      cases hf
      cases hm
      exact hset hp hinterested
    · contradiction
  | unchoked hp | choked hp =>
    cases hf
    cases hm
    exact hset hp rfl
  | _ => contradiction

/-- A message that announces something else leaves the last announcement. -/
theorem lastAnnounced_sent (message : StandardMessage) (events : List Event) :
    lastAnnounced f (.sent message :: events) = lastAnnounced f events ∨
      ∃ v, announces message = some (f, v) ∧ lastAnnounced f (.sent message :: events) = v := by
  rw [lastAnnounced]
  split
  · rename_i g v he
    split
    · rename_i hg
      subst hg
      exact Or.inr ⟨v, he, rfl⟩
    · exact Or.inl rfl
  · exact Or.inl rfl

/-- What becomes of the last announcement: it stays, the step makes one, or the entry has a new
pipeline. -/
theorem Act.last_cases (h : Act host u a pc choice u' pc') (b : A) (f : Flag) :
    lastAnnounced f (u'.history b) = lastAnnounced f (u.history b) ∨
      (∃ v flagOf, pc.tells a choice = some (b, (f, v), flagOf) ∧
        lastAnnounced f (u'.history b) = v) ∨
      u'.peer b = some (.active u.pipelines.length) := by
  -- sending to some address, and what the step tells it
  have hsend : ∀ {c : A} {message : StandardMessage} (flagOf : Option Nat),
      (∀ e, announces message = some e → pc.tells a choice = some (c, e, flagOf)) →
      lastAnnounced f ((u.send c message).history b) = lastAnnounced f (u.history b) ∨
        (∃ v flagOf, pc.tells a choice = some (b, (f, v), flagOf) ∧
          lastAnnounced f ((u.send c message).history b) = v) ∨
        (u.send c message).peer b = some (.active u.pipelines.length) := by
    intro c message flagOf htells
    by_cases hb : b = c
    · subst hb
      rw [TorrentSession.send_history_self]
      rcases lastAnnounced_sent (f := f) message (u.history b) with hsame | ⟨v, he, hv⟩
      · exact Or.inl hsame
      · exact Or.inr (Or.inl ⟨v, flagOf, htells _ he, hv⟩)
    · rw [TorrentSession.send_history_of_ne u message hb]
      exact Or.inl rfl
  cases h with
  | dialSent | haveSent => exact hsend none nofun
  | sent =>
    rename_i message flagOf thenMode
    exact hsend flagOf fun e he => by simp [Pc.tells, he]
  | announced hj =>
    exact hsend none fun e he => by simp [Pc.tells, hj, he]
  | asked =>
    by_cases hb : b = a
    · subst hb
      rw [TorrentSession.record_history_self]
      exact Or.inl rfl
    · rw [TorrentSession.record_history_of_ne u _ hb]
      exact Or.inl rfl
  | removed =>
    by_cases hb : b = a
    · subst hb
      rw [TorrentSession.terminateWith_history_self]
      exact Or.inl rfl
    · rw [TorrentSession.terminateWith_history_of_ne u hb]
      exact Or.inl rfl
  | greeted =>
    rename_i infoHash peerId outbound
    by_cases hb : b = a
    · subst hb
      rw [TorrentSession.record_history_self]
      exact Or.inl rfl
    · rw [TorrentSession.record_history_of_ne _ _ hb]
      exact Or.inl rfl
  | opened =>
    by_cases hb : b = a
    · subst hb
      exact Or.inr (Or.inr (TorrentSession.insertPipeline_peer_self ..))
    · rw [TorrentSession.insertPipeline_history_of_ne u host _ _ hb]
      exact Or.inl rfl
  | _ => exact Or.inl rfl

end Task

/-! ## The invariant -/

/-- The task stands between a flag and its message, or is about to give up the peer. -/
def Task.busy (t : Task A) (a : A) (i : Nat) (f : Flag) : Prop :=
  (∃ message v, t.pc.flagged = some (i, message) ∧ announces message = some (f, v)) ∨
    (t.source = a ∧ t.pc = .terminate)

omit [DecidableEq A] in
/-- A task that has ended is not. -/
theorem Task.not_busy {t : Task A} (h : t.pc = .finished) {a : A} {i : Nat} {f : Flag} :
    ¬ t.busy a i f := by
  rintro (⟨message, v, hflag, _⟩ | ⟨_, hpc⟩)
  · rw [h] at hflag
    contradiction
  · cases h.symm.trans hpc

/-- Flags mirror what was announced, up to the handlers that are about to announce them. -/
structure Mirrored (s : System D A) : Prop where
  active : ∀ a i, s.session.peer a = some (.active i) →
    ∃ p, s.session.pipelines[i]? = some p ∧ p.peer.addr = a
  holds : ∀ t ∈ s.tasks, ∀ i, t.pc.pipe = some i →
    ∃ p, s.session.pipelines[i]? = some p ∧ p.peer.addr = t.source
  flagged : ∀ t ∈ s.tasks, ∀ i message f v p, t.pc.flagged = some (i, message) →
    announces message = some (f, v) → s.session.pipelines[i]? = some p → p.flag f = v
  mirror : ∀ a i p f, s.session.peer a = some (.active i) → s.session.pipelines[i]? = some p →
    (∀ t ∈ s.tasks, ¬ t.busy a i f) → p.flag f = lastAnnounced f (s.session.history a)

/-- A session starts with its flags mirrored. -/
theorem mirrored_new (host : Host D P S) (manager : SessionManager A) (mode : ActiveMode) :
    Mirrored (.new host manager mode : System D A) where
  active := by simp [System.new, TorrentSession.peer]
  holds := by simp [System.new]
  flagged := by simp [System.new]
  mirror := by simp [System.new, TorrentSession.peer]

omit [DecidableEq A] in
/-- The handler of a flag holds its pipeline. -/
theorem pipe_of_flagged {pc : Pc A} {i : Nat} {message : StandardMessage}
    (h : pc.flagged = some (i, message)) : pc.pipe = some i := by
  unfold Pc.flagged at h
  split at h
  · cases h
    rfl
  · contradiction

omit [DecidableEq A] in
/-- What the condition on writes says when a message follows. -/
theorem not_opposed_of_writesInTurn {pc : Pc A} {i : Nat} {f : Flag} {v : Bool}
    (h : writesInTurn s pc = true) (hw : pc.writes s.session = some (i, f, v, true)) {t : Task A}
    (ht : t ∈ s.tasks) {message : StandardMessage} {w : Bool}
    (hf : t.pc.flagged = some (i, message)) (hm : announces message = some (f, w)) : w = v := by
  simp only [writesInTurn, hw, List.all_eq_true] at h
  have hno := h t ht
  rw [hf, Option.all_some, hm] at hno
  cases v <;> cases w <;> simp_all

omit [DecidableEq A] in
/-- What it says when none does. -/
theorem flag_of_writesInTurn {pc : Pc A} {i : Nat} {f : Flag} {v : Bool} {p : Pipeline D A}
    (h : writesInTurn s pc = true) (hw : pc.writes s.session = some (i, f, v, false))
    (hp : s.session.pipelines[i]? = some p) : p.flag f = v := by
  simpa [writesInTurn, hw, hp] using h

/-- Every active entry has a pipeline of its address. -/
theorem Mirrored.active_next (hs : Mirrored s) (h : Move host s l s') :
    ∀ a i, s'.session.peer a = some (.active i) →
      ∃ p, s'.session.pipelines[i]? = some p ∧ p.peer.addr = a := by
  intro a i hpeer
  rcases h.entry_cases a with ⟨hsame, _⟩ | hgone | ⟨k, choice, t, rfl, hk, rfl, hw⟩
  · obtain ⟨p, hp, haddr⟩ := hs.active a i (hsame ▸ hpeer)
    obtain ⟨p', hp', hnode⟩ := h.pipeline_next hp
    exact ⟨p', hp', by rw [hnode, haddr]⟩
  · rw [hgone] at hpeer
    contradiction
  · cases hw with
    | connecting _ _ hnew | dialled _ hnew | greeted _ hnew | removed hnew =>
      cases hnew.symm.trans hpeer
    | opened hpc hnew hhistory hpipelines =>
      cases hnew.symm.trans hpeer
      rw [hpipelines]
      exact ⟨_, List.getElem?_concat_length, rfl⟩

/-- Every handler that holds a pipeline holds one of its source. -/
theorem Mirrored.holds_next (hs : Mirrored s) (h : Move host s l s') :
    ∀ t ∈ s'.tasks, ∀ i, t.pc.pipe = some i →
      ∃ p, s'.session.pipelines[i]? = some p ∧ p.peer.addr = t.source := by
  intro t ht i hi
  have hkeep : (∃ p, s.session.pipelines[i]? = some p ∧ p.peer.addr = t.source) →
      ∃ p, s'.session.pipelines[i]? = some p ∧ p.peer.addr = t.source := by
    rintro ⟨p, hp, haddr⟩
    obtain ⟨p', hp', hnode⟩ := h.pipeline_next hp
    exact ⟨p', hp', by rw [hnode, haddr]⟩
  rcases h.task_origin ht with hold | hnew | ⟨k, choice, u, _, hk, hsource, hact⟩
  · exact hkeep (hs.holds t hold i hi)
  · rcases hnew with ⟨_, hpc⟩ | hpc | ⟨_, hpc⟩ <;> rw [hpc] at hi <;> contradiction
  · rw [hsource] at hkeep ⊢
    rcases hact.pipe hi with hheld | hactive
    · exact hkeep (hs.holds u (List.mem_of_getElem? hk) i hheld)
    · exact hkeep (hs.active u.source i hactive)

/-- The flags that handlers are about to announce, across a step of a task. -/
theorem Mirrored.flagged_task (hs : Mirrored s) {k : Nat} {choice : Choice} {t : Task A}
    {u : TorrentSession D A} {pc : Pc A}
    (hact : Act host s.session t.source t.pc choice u pc) (hw : writesInTurn s t.pc = true) :
    ∀ t' ∈ (s.moveTo k t u pc).tasks, ∀ i message f v p, t'.pc.flagged = some (i, message) →
      announces message = some (f, v) → u.pipelines[i]? = some p → p.flag f = v := by
  intro t' ht' i message f v p hflag hm hp
  rcases List.mem_or_eq_of_mem_set ht' with hold | rfl
  · obtain ⟨q, hq, _⟩ := hs.holds t' hold i (pipe_of_flagged hflag)
    have hqv := hs.flagged t' hold i message f v q hflag hm hq
    rcases hact.flag_cases hp with ⟨q', hq', hsame⟩ | ⟨rfl, _⟩ |
      ⟨q', g, w, follows, hq', hwrites, hnew, hother, _⟩
    · cases hq.symm.trans hq'
      rw [hsame, hqv]
    · have hlt := (List.getElem?_eq_some_iff.mp hq).1
      omega
    · cases hq.symm.trans hq'
      by_cases hg : f = g
      · subst hg
        cases follows with
        | true => rw [hnew, not_opposed_of_writesInTurn hw hwrites hold hflag hm]
        | false => rw [hnew, ← flag_of_writesInTurn hw hwrites hq, hqv]
      · rw [hother f hg, hqv]
  · obtain ⟨q, hq, hqv⟩ := hact.flagged_new hflag hm
    cases hq.symm.trans hp
    exact hqv

/-- What the condition on announcements says to an active peer. -/
theorem flag_of_tellsFlag {u : TorrentSession D A} {a b : A} {pc : Pc A} {choice : Choice} {i : Nat}
    {p : Pipeline D A} {f : Flag} {v : Bool} {flagOf : Option Nat}
    (h : tellsFlag u a pc choice = true) (ht : pc.tells a choice = some (b, (f, v), flagOf))
    (hpeer : u.peer b = some (.active i)) (hp : u.pipelines[i]? = some p) :
    flagOf = some i ∨ p.flag f = v := by
  simpa [tellsFlag, ht, TorrentSession.getPipeline_eq_some.mpr hpeer, hp] using h

omit [DecidableEq A] in
/-- Who tells a peer something for the flag of a pipeline is the handler of that flag. -/
theorem flagged_of_tells {a b : A} {pc : Pc A} {choice : Choice} {i : Nat} {f : Flag} {v : Bool}
    (h : pc.tells a choice = some (b, (f, v), some i)) :
    ∃ message, pc.flagged = some (i, message) ∧ announces message = some (f, v) := by
  unfold Pc.tells at h
  split at h
  · obtain ⟨e, he, heq⟩ := Option.map_eq_some_iff.mp h
    cases heq
    exact ⟨_, rfl, he⟩
  · obtain ⟨c, _, h⟩ := Option.bind_eq_some_iff.mp h
    obtain ⟨e, _, heq⟩ := Option.map_eq_some_iff.mp h
    cases heq
  · contradiction

/-- The mirror across a step of a task that leaves the entry of the address as it was. -/
theorem Mirrored.mirror_task (hs : Mirrored s) {k : Nat} {choice : Choice} {t : Task A}
    {u : TorrentSession D A} {pc : Pc A} (hk : s.tasks[k]? = some t)
    (hact : Act host s.session t.source t.pc choice u pc) (hw : writesInTurn s t.pc = true)
    (ht : tellsFlag s.session t.source t.pc choice = true) {a : A} {i : Nat} {p' : Pipeline D A}
    {f : Flag} (hpeer : s.session.peer a = some (.active i)) (hpeer' : u.peer a = some (.active i))
    (hi : u.pipelines[i]? = some p')
    (hidle : ∀ t' ∈ (s.moveTo k t u pc).tasks, ¬ t'.busy a i f) :
    p'.flag f = lastAnnounced f (u.history a) := by
  obtain ⟨p, hp, haddr⟩ := hs.active a i hpeer
  have hlt : i < s.session.pipelines.length := (List.getElem?_eq_some_iff.mp hp).1
  have hmoved : ¬ Task.busy { t with pc := pc } a i f := hidle _ (mem_set_new hk)
  by_cases hbusy : t.busy a i f
  · rcases hbusy with ⟨message, v, hflag, hm⟩ | ⟨rfl, hpc⟩
    · -- the handler of this very flag has sent, since it would still be busy otherwise
      obtain ⟨q, hq, hsource⟩ := hs.holds t (List.mem_of_getElem? hk) i (pipe_of_flagged hflag)
      cases hp.symm.trans hq
      have hat : t.source = a := hsource.symm.trans haddr
      rcases hact.flagged_next hflag with ⟨_, rfl⟩ | ⟨rfl, rfl⟩
      · cases hp.symm.trans hi
        rw [hs.flagged t (List.mem_of_getElem? hk) i message f v p' hflag hm hi, hat,
          TorrentSession.send_history_self, lastAnnounced, hm]
        simp
      · exact absurd (Or.inr ⟨hat, rfl⟩) hmoved
    · rw [hpc] at hact
      rw [hact.terminate_next] at hpeer'
      contradiction
  · have hquiet : ∀ t' ∈ s.tasks, ¬ t'.busy a i f := by
      intro t' ht'
      rcases eq_or_mem_set (y := { t with pc := pc }) hk ht' with rfl | hmem
      · exact hbusy
      · exact hidle t' hmem
    have hmirror := hs.mirror a i p f hpeer hp hquiet
    have hflags : p'.flag f = p.flag f := by
      rcases hact.flag_cases hi with ⟨q, hq, hsame⟩ | ⟨rfl, _⟩ |
        ⟨q, g, v, follows, hq, hwrites, hnew, hother, hfollows⟩
      · cases hp.symm.trans hq
        exact hsame f
      · omega
      · cases hp.symm.trans hq
        by_cases hg : f = g
        · subst hg
          cases follows with
          | true =>
            obtain ⟨message, hflag, hm⟩ := hfollows rfl
            exact absurd (Or.inl ⟨message, v, hflag, hm⟩) hmoved
          | false => rw [hnew, flag_of_writesInTurn hw hwrites hp]
        · exact hother f hg
    rcases hact.last_cases a f with hsame | ⟨v, flagOf, htells, hlast⟩ | hopened
    · rw [hflags, hmirror, hsame]
    · rcases flag_of_tellsFlag ht htells hpeer hp with rfl | hflag
      · obtain ⟨message, hflag, hm⟩ := flagged_of_tells htells
        exact absurd (Or.inl ⟨message, v, hflag, hm⟩) hbusy
      · rw [hflags, hflag, hlast]
    · cases hpeer'.symm.trans hopened
      omega

/-- The mirror across a step. A new pipeline has been told nothing. -/
theorem Mirrored.mirror_next (hs : Mirrored s) (h : Move host s l s')
    (hl : keepsFlags s l = true) {a : A} {i : Nat} {p : Pipeline D A} {f : Flag}
    (hpeer : s'.session.peer a = some (.active i)) (hi : s'.session.pipelines[i]? = some p)
    (hidle : ∀ t ∈ s'.tasks, ¬ t.busy a i f) :
    p.flag f = lastAnnounced f (s'.session.history a) := by
  cases h with
  | spawn h =>
    exact hs.mirror a i p f hpeer hi fun t ht => hidle t (List.mem_append_left _ ht)
  | task hk hact =>
    simp only [keepsFlags, hk, Bool.and_eq_true] at hl
    rcases hact.entry_cases a with ⟨hsame, _⟩ | ⟨rfl, hw⟩
    · exact hs.mirror_task hk hact hl.1 hl.2 (hsame ▸ hpeer) hpeer hi hidle
    · cases hw with
      | connecting _ _ hnew | dialled _ hnew | greeted _ hnew | removed hnew =>
        cases hnew.symm.trans hpeer
      | opened hpc hnew hhistory hpipelines =>
        cases hnew.symm.trans hpeer
        have hi := hi
        simp only [System.moveTo] at hi hpipelines hhistory ⊢
        rw [hpipelines, List.getElem?_concat_length] at hi
        cases hi
        rw [hhistory]
        cases f <;> rfl
  | disconnect addr =>
    by_cases ha : a = addr
    · subst ha
      rw [TorrentSession.terminateWith_peer_self] at hpeer
      contradiction
    · rw [TorrentSession.terminateWith_peer_of_ne s.session ha] at hpeer
      rw [TorrentSession.terminateWith_history_of_ne s.session ha]
      exact hs.mirror a i p f hpeer hi hidle
  | manage => exact hs.mirror a i p f hpeer hi hidle

/-- A step that keeps the flags keeps them mirrored. -/
theorem Move.mirrored (h : Move host s l s') (hs : Mirrored s) (hl : keepsFlags s l = true) :
    Mirrored s' := by
  refine ⟨hs.active_next h, hs.holds_next h, ?_,
    fun _ _ _ _ hpeer hi hidle => hs.mirror_next h hl hpeer hi hidle⟩
  cases h with
  | spawn h =>
    intro t ht i message f v p hflag hm hp
    rcases List.mem_append.mp ht with hold | hnew
    · exact hs.flagged t hold i message f v p hflag hm hp
    · rw [List.mem_singleton.mp hnew] at hflag
      rcases h with ⟨_, _, rfl⟩ | ⟨_, rfl⟩ | ⟨_, _, rfl⟩ <;> contradiction
  | task hk hact =>
    simp only [keepsFlags, hk, Bool.and_eq_true] at hl
    exact hs.flagged_task hact hl.1
  | disconnect addr => exact hs.flagged
  | manage => exact hs.flagged

/-- In a run whose steps all keep to this, the flags of an active pipeline are what its peer was
last told, unless a handler has yet to send what it has written, or is about to give up the peer
it could not send it to; and a flag that has yet to be announced has the value that will be. -/
theorem flags_mirror_announcements (host : Host D P S) (manager : SessionManager A)
    (mode : ActiveMode) (labels : List (Label A)) (s : System D A)
    (hcond : Along (step host) (fun s l => keepsFlags s l = true) (.new host manager mode) labels)
    (h : run (step host) (.new host manager mode) labels = some s) (a : A) (i : Nat)
    (p : Pipeline D A) (hpeer : s.session.peer a = some (.active i))
    (hi : s.session.pipelines[i]? = some p) :
    ((∀ t ∈ s.tasks, ¬ t.busy a i .choking) →
      p.amChoking = lastAnnounced .choking (s.session.history a)) ∧
    ((∀ t ∈ s.tasks, ¬ t.busy a i .interested) →
      p.amInterested = lastAnnounced .interested (s.session.history a)) ∧
    ∀ t ∈ s.tasks, ∀ message f v, t.pc.flagged = some (i, message) →
      announces message = some (f, v) → p.flag f = v := by
  have hinv : Mirrored s :=
    run_invariant_along (fun _ _ _ hs hl ha => (step_move ha).mirrored hs hl)
      (mirrored_new host manager mode) hcond h
  refine ⟨hinv.mirror a i p .choking hpeer hi, hinv.mirror a i p .interested hpeer hi, ?_⟩
  intro t ht message f v hflag hm
  exact hinv.flagged t ht i message f v p hflag hm hi

end Flags

/-- The peer is interested, and is unchoked. -/
def sampleUnchoked : List (Label Nat) :=
  sampleGreeting ++ .receive 7 .interested :: sampleTask 2 7

/-- In the sample run the last announcement is the flag of the pipeline. -/
theorem flags_mirror_announcements_sample :
    ∃ s p, run (step sampleHost) (sampleSystem .seeding) sampleUnchoked = some s ∧
      s.session.peer 7 = some (.active 0) ∧ s.session.pipelines[0]? = some p ∧
      lastAnnounced .choking (s.session.history 7) = false ∧ p.amChoking = false ∧
      p.amInterested = lastAnnounced .interested (s.session.history 7) := by
  have hrun : ((run (step sampleHost) (sampleSystem .seeding) sampleUnchoked).any fun s =>
      s.session.peer 7 = some (.active 0) ∧ s.session.pipelines[0]?.isSome ∧
        lastAnnounced .choking (s.session.history 7) = false ∧
        ∀ t ∈ s.tasks, t.pc = .finished) = true := by
    decide +kernel
  obtain ⟨s, hs, hpeer, hsome, hlast, hdone⟩ := exists_of_any hrun
  obtain ⟨p, hp⟩ := Option.isSome_iff_exists.mp hsome
  have hidle : ∀ f, ∀ t ∈ s.tasks, ¬ t.busy 7 0 f := fun _ t ht => Task.not_busy (hdone t ht)
  obtain ⟨hchoking, hinterested, _⟩ := flags_mirror_announcements sampleHost sampleManager .seeding
    sampleUnchoked s (by decide +kernel) hs 7 0 p hpeer hp
  exact ⟨s, p, hs, hpeer, hp, hlast, (hchoking (hidle .choking)).trans hlast,
    hinterested (hidle .interested)⟩

/-- Seeding ends, and its worker broadcasts a choke. -/
def samplePaused : List (Label Nat) :=
  sampleUnchoked ++ [.setMode .idle, .broadcast 0 .choke, .task 3 .go, .task 3 (.target 0 true),
    .task 3 .go]

/-- The peer was told that it is choked, and is not. -/
theorem broadcast_choke_leaves_flag :
    ∃ s, run (step sampleHost) (sampleSystem .seeding) samplePaused = some s ∧
      (∀ t ∈ s.tasks, t.pc = .finished) ∧ s.session.peer 7 = some (.active 0) ∧
      lastAnnounced .choking (s.session.history 7) = true ∧
      s.session.pipelines.map Pipeline.amChoking = [false] := by
  have hrun : ((run (step sampleHost) (sampleSystem .seeding) samplePaused).any fun s =>
      (∀ t ∈ s.tasks, t.pc = .finished) ∧ s.session.peer 7 = some (.active 0) ∧
        lastAnnounced .choking (s.session.history 7) = true ∧
        s.session.pipelines.map Pipeline.amChoking = [false]) = true := by
    decide +kernel
  obtain ⟨s, hs, hprops⟩ := exists_of_any hrun
  exact ⟨s, hs, hprops⟩

end Bqti.Session.Peers
