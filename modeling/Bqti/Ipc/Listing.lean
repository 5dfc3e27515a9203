import Bqti.Ipc.Daemon

/-!
# The listing is the set of sessions

A torrent with a session, or on its way to one, is listed or about to be announced; a listed
torrent has a session, is on its way to one, or is about to be withdrawn. Both hold as long as
every session comes from a request to add it, no creation fails, and a torrent is not added
and removed at the same time.
-/

namespace Bqti.Ipc.Daemon

open Bqti.Core Bqti.Torrent
open Bqti.Session.Manager (QueuedTorrent)
open Bqti.Session.Cache (CachingMode)

/-! ## The listing -/

/-- The torrents that the clients are shown. -/
def Node.listing (d : Node) : Set (String × String) :=
  {entry | ∃ k t, d.ipc.get k = some t ∧ entry = (t.infoHash, t.name)}

/-- The torrents that have a session. -/
def Node.sessions (d : Node) : Set (String × String) :=
  {entry | ∃ h t, d.byHash h = some t ∧ entry = (h.display, t.name)}

/-- Nothing is queued or being created, every request is answered, and no event is on its way. -/
def Node.Quiet (d : Node) : Prop :=
  d.queue = [] ∧ d.worker.item = none ∧ (∀ c ∈ d.calls, c.isFinished = true) ∧
    d.forwarder.events = []

/-- What a request does to the listing. -/
inductive Role
  | adding
  | announcing
  | removing
  | withdrawing
  deriving DecidableEq

/-- The torrent that a request is adding or removing. -/
def Call.role : Call → Option (Role × InfoHash)
  | .checking item => some (.adding, item.torrent.infoHash)
  | .sending item => some (.adding, item.torrent.infoHash)
  | .announcing item => some (.announcing, item.torrent.infoHash)
  | .removing h => some (.removing, h)
  | .withdrawing h => some (.withdrawing, h)
  | .pausing _ | .suspending _ | .reporting _ | .resuming _ | .restarting _ | .finished _ => none

namespace Node

/-- Some request has this role for a torrent. -/
def Doing (d : Node) (r : Role) (h : InfoHash) : Prop := ∃ c ∈ d.calls, c.role = some (r, h)

/-- The torrents on their way to a session. -/
def made (d : Node) : List QueuedTorrent := d.worker.item.toList ++ d.queue

/-- A torrent is on its way to a session. -/
def Making (d : Node) (h : InfoHash) : Prop := ∃ item ∈ d.made, item.torrent.infoHash = h

/-- A torrent is shown to the clients. -/
def Listed (d : Node) (h : InfoHash) : Prop := (d.ipc.get h.display).isSome = true

end Node

/-- The steps that keep the listing right: nothing is restored, no session fails to be created,
only torrents without a name are paused, torrents have the name that belongs to their hash, and
a torrent is not added and removed at the same time. -/
def Careful (nameOf : InfoHash → String) (d : Node) : Label → Prop
  | .restore => False
  | .create outcome => outcome = .ok ()
  | .request r =>
      match r.start with
      | .checking item =>
          item.torrent.name = nameOf item.torrent.infoHash ∧
            ¬ d.Doing .removing item.torrent.infoHash ∧ ¬ d.Doing .withdrawing item.torrent.infoHash
      | .removing h => ¬ d.Doing .adding h ∧ ¬ d.Doing .announcing h ∧ ¬ d.Making h
      | _ => True
  | .advance i outcome =>
      match d.calls[i]? with
      | some (.suspending h) => outcome = .ok () → nameOf h = ""
      | _ => True
  | .receive | .insert | .report _ _ | .subscribe | .take | .forward => True

/-! ## Keeping the flow -/

section Roles

variable {d : Node} {i : Nat} {old new : Call} {r : Role} {h : InfoHash}

/-- A request that moves on may take up a new role. -/
theorem Node.doing_of_setCall (hdoing : (d.setCall i new).Doing r h) :
    d.Doing r h ∨ new.role = some (r, h) := by
  obtain ⟨c, hc, hrole⟩ := hdoing
  rcases List.mem_or_eq_of_mem_set hc with hc | rfl
  · exact .inl ⟨c, hc, hrole⟩
  · exact .inr hrole

/-- A request that moves on gives up no role but its own. -/
theorem Node.doing_setCall (hi : d.calls[i]? = some old) (hdoing : d.Doing r h)
    (hold : old.role ≠ some (r, h)) : (d.setCall i new).Doing r h := by
  obtain ⟨c, hc, hrole⟩ := hdoing
  rcases eq_or_mem_set hi hc with rfl | hc
  · exact absurd hrole hold
  · exact ⟨c, hc, hrole⟩

/-- A request takes on the role that it is given. -/
theorem Node.doing_setCall_new (hi : d.calls[i]? = some old) (hnew : new.role = some (r, h)) :
    (d.setCall i new).Doing r h := ⟨new, mem_set_new hi, hnew⟩

end Roles

/-- How sessions, queued torrents, requests and the listing go together. -/
structure Flow (d : Node) : Prop where
  shown : ∀ h, (d.byHash h).isSome = true ∨ d.Making h → d.Listed h ∨ d.Doing .announcing h
  backed : ∀ h, d.Listed h ∨ d.Doing .announcing h →
    (d.byHash h).isSome = true ∨ d.Making h ∨ d.Doing .withdrawing h
  apart : ∀ h, d.Doing .removing h ∨ d.Doing .withdrawing h →
    ¬ d.Doing .adding h ∧ ¬ d.Doing .announcing h ∧ ¬ d.Making h
  gone : ∀ h, d.Doing .withdrawing h → d.byHash h = none

/-- A node starts in order. -/
theorem flow_start (cached : List CachingMode) : Flow (.start cached) := by
  have hnone : ∀ r h, ¬ (Node.start cached).Doing r h := by
    rintro r h ⟨c, hc, -⟩
    exact absurd hc List.not_mem_nil
  have hmade : ∀ h, ¬ (Node.start cached).Making h := by
    rintro h ⟨item, hitem, -⟩
    exact absurd hitem List.not_mem_nil
  have hlisted : ∀ h, ¬ (Node.start cached).Listed h := by
    intro h hlisted
    rw [Node.Listed, Node.start, IpcState.get_default] at hlisted
    exact absurd hlisted (by simp)
  refine ⟨fun h hs => ?_, fun h hl => ?_, fun h hr => ?_, fun h hw => ?_⟩
  · exact absurd (hs.resolve_right (hmade h)) (by simp [Node.start])
  · exact absurd hl (not_or.mpr ⟨hlisted h, hnone _ h⟩)
  · exact absurd hr (not_or.mpr ⟨hnone _ h, hnone _ h⟩)
  · exact absurd hw (hnone _ h)

/-- A step that changes nothing of all this. -/
theorem Flow.congr {d d' : Node} (hf : Flow d) (hhash : d'.byHash = d.byHash)
    (hdoing : ∀ r h, d'.Doing r h ↔ d.Doing r h) (hmaking : ∀ h, d'.Making h ↔ d.Making h)
    (hlisted : ∀ h, d'.Listed h ↔ d.Listed h) : Flow d' where
  shown h := by rw [hhash, hmaking, hlisted, hdoing]; exact hf.shown h
  backed h := by rw [hhash, hmaking, hlisted, hdoing, hdoing]; exact hf.backed h
  apart h := by rw [hmaking, hdoing, hdoing, hdoing, hdoing]; exact hf.apart h
  gone h := by rw [hhash, hdoing]; exact hf.gone h

section Listed

variable {d : Node} {g h : InfoHash}

/-- An added torrent is listed, and the others are as before. -/
theorem Node.listed_emit_added {name : String} {state : TorrentState} :
    (d.emit (.torrentAdded g.display name state)).Listed h ↔ g = h ∨ d.Listed h := by
  simp only [Node.Listed, Node.emit, IpcState.get_apply, Event.touches, Event.effect,
    Option.some.injEq, InfoHash.display_injective.eq_iff]
  by_cases hgh : g = h
  · simp [hgh]
  · simp [hgh]

/-- A removed torrent is not listed, and the others are as before. -/
theorem Node.listed_emit_removed :
    (d.emit (.torrentRemoved g.display)).Listed h ↔ g ≠ h ∧ d.Listed h := by
  simp only [Node.Listed, Node.emit, IpcState.get_apply, Event.touches, Event.effect,
    Option.some.injEq, InfoHash.display_injective.eq_iff]
  by_cases hgh : g = h
  · simp [hgh]
  · simp [hgh]

/-- Events that are no additions and no removals leave the listed torrents. -/
theorem Node.listed_emit_keep {e : Event}
    (hkeep : ∀ entry, (e.effect entry).isSome = entry.isSome) :
    (d.emit e).Listed h ↔ d.Listed h := by
  simp only [Node.Listed, Node.emit, IpcState.get_apply]
  split
  · rw [hkeep]
  · rfl

end Listed

section FlowCalls

variable {d : Node} {i : Nat} {old new : Call}

@[simp] theorem Node.byHash_setCall : (d.setCall i new).byHash = d.byHash := rfl

/-- A removed session is not found. -/
theorem Node.byHash_removeSession (h : InfoHash) : (d.removeSession h).byHash h = none :=
  Function.update_self ..

/-- Other sessions are found as before a removal. -/
theorem Node.byHash_removeSession_of_ne {g h : InfoHash} (hne : h ≠ g) :
    (d.removeSession g).byHash h = d.byHash h := Function.update_of_ne hne ..

/-- An inserted session is found. -/
theorem Node.byHash_insertSession (item : QueuedTorrent) :
    (d.insertSession item).byHash item.torrent.infoHash = some item.torrent :=
  Function.update_self ..

/-- Other sessions are found as before an insertion. -/
theorem Node.byHash_insertSession_of_ne {item : QueuedTorrent} {h : InfoHash}
    (hne : h ≠ item.torrent.infoHash) : (d.insertSession item).byHash h = d.byHash h :=
  Function.update_of_ne hne ..

/-- A request that has nothing to announce or withdraw may end or go on as it is. -/
theorem Flow.setCall (hf : Flow d) (hi : d.calls[i]? = some old)
    (hold : ∀ h, old.role ≠ some (.announcing, h) ∧ old.role ≠ some (.withdrawing, h))
    (hnew : new.role = none ∨ new.role = old.role) : Flow (d.setCall i new) := by
  have hsub : ∀ r h, (d.setCall i new).Doing r h → d.Doing r h := by
    intro r h hdoing
    rcases Node.doing_of_setCall hdoing with hdoing | hrole
    · exact hdoing
    · rcases hnew with hnone | hsame
      · exact absurd (hnone.symm.trans hrole) (by simp)
      · exact ⟨old, List.mem_of_getElem? hi, hsame.symm.trans hrole⟩
  refine ⟨fun h hs => ?_, fun h hl => ?_, fun h hr => ?_, fun h hw => hf.gone h (hsub _ h hw)⟩
  · exact (hf.shown h hs).imp_right fun ha => Node.doing_setCall hi ha (hold h).1
  · rcases hf.backed h (hl.imp_right (hsub _ h)) with hsession | hmaking | hwithdraw
    · exact .inl hsession
    · exact .inr (.inl hmaking)
    · exact .inr (.inr (Node.doing_setCall hi hwithdraw (hold h).2))
  · obtain ⟨hadd, hannounce, hmaking⟩ := hf.apart h (hr.imp (hsub _ h) (hsub _ h))
    exact ⟨fun h' => hadd (hsub _ h h'), fun h' => hannounce (hsub _ h h'), hmaking⟩

/-- Queueing a torrent keeps the node in order. -/
theorem Flow.sending {item : QueuedTorrent} (hf : Flow d)
    (hi : d.calls[i]? = some (.sending item)) :
    Flow { d.setCall i (.announcing item) with queue := d.queue ++ [item] } := by
  set d' : Node := { d.setCall i (.announcing item) with queue := d.queue ++ [item] }
  have hmaking : ∀ h, d'.Making h ↔ d.Making h ∨ item.torrent.infoHash = h := by
    intro h
    simp only [Node.Making, Node.made, d', Node.setCall, ← List.append_assoc, List.mem_append,
      List.mem_singleton, or_and_right, exists_or, exists_eq_left]
  have hsub : ∀ r h, d'.Doing r h →
      d.Doing r h ∨ (r, h) = (.announcing, item.torrent.infoHash) := by
    intro r h hdoing
    exact (Node.doing_of_setCall hdoing).imp_right fun hrole => (Option.some.inj hrole).symm
  have hkeep : ∀ r h, d.Doing r h → r ≠ .adding → d'.Doing r h := by
    intro r h hdoing hr
    exact Node.doing_setCall hi hdoing fun hrole =>
      hr (congrArg Prod.fst (Option.some.inj hrole)).symm
  have hown : d'.Doing .announcing item.torrent.infoHash := Node.doing_setCall_new hi rfl
  have hadding : d.Doing .adding item.torrent.infoHash := ⟨_, List.mem_of_getElem? hi, rfl⟩
  refine ⟨fun h hs => ?_, fun h hl => ?_, fun h hr => ?_, fun h hw => ?_⟩
  · rw [hmaking, ← or_assoc] at hs
    rcases hs with hs | rfl
    · exact (hf.shown h hs).imp_right fun ha => hkeep _ h ha (by decide)
    · exact .inr hown
  · rw [hmaking]
    have hl' : (d.Listed h ∨ d.Doing .announcing h) ∨ item.torrent.infoHash = h := by
      rcases hl with hl | ha
      · exact .inl (.inl hl)
      · rcases hsub _ h ha with ha | heq
        · exact .inl (.inr ha)
        · exact .inr (congrArg Prod.snd heq).symm
    rcases hl' with hl' | rfl
    · rcases hf.backed h hl' with hsession | hmade | hwithdraw
      · exact .inl hsession
      · exact .inr (.inl (.inl hmade))
      · exact .inr (.inr (hkeep _ h hwithdraw (by decide)))
    · exact .inr (.inl (.inr rfl))
  · have hr' : d.Doing .removing h ∨ d.Doing .withdrawing h := by
      rcases hr with hr | hr
      · exact .inl ((hsub _ h hr).resolve_right (by simp))
      · exact .inr ((hsub _ h hr).resolve_right (by simp))
    obtain ⟨hadd, hannounce, hmade⟩ := hf.apart h hr'
    have hne : item.torrent.infoHash ≠ h := fun heq => hadd (heq ▸ hadding)
    refine ⟨fun ha => ?_, fun ha => ?_, fun hm => ?_⟩
    · exact hadd ((hsub _ h ha).resolve_right (by simp))
    · exact hannounce ((hsub _ h ha).resolve_right fun heq => hne (congrArg Prod.snd heq).symm)
    · exact ((hmaking h).mp hm).elim hmade hne
  · exact hf.gone h ((hsub _ h hw).resolve_right (by simp))

/-- Announcing a torrent keeps the node in order. -/
theorem Flow.announcing {item : QueuedTorrent} {name : String} {state : TorrentState}
    {reply : Except String Response} (hf : Flow d) (hi : d.calls[i]? = some (.announcing item)) :
    Flow ((d.setCall i (.finished reply)).emit
      (.torrentAdded item.torrent.infoHash.display name state)) := by
  have hsub : ∀ r h, (d.setCall i (.finished reply)).Doing r h → d.Doing r h :=
    fun r h hdoing => (Node.doing_of_setCall hdoing).resolve_right (by simp [Call.role])
  have hown : d.Doing .announcing item.torrent.infoHash := ⟨_, List.mem_of_getElem? hi, rfl⟩
  have hkeep : ∀ r h, d.Doing r h → (r, h) ≠ (.announcing, item.torrent.infoHash) →
      (d.setCall i (.finished reply)).Doing r h :=
    fun r h hdoing hne => Node.doing_setCall hi hdoing fun hrole => hne (Option.some.inj hrole).symm
  refine ⟨fun h hs => ?_, fun h hl => ?_, fun h hr => ?_, fun h hw => hf.gone h (hsub _ h hw)⟩
  · rw [Node.listed_emit_added]
    by_cases heq : item.torrent.infoHash = h
    · exact .inl (.inl heq)
    · rcases hf.shown h hs with hl | ha
      · exact .inl (.inr hl)
      · exact .inr (hkeep _ h ha fun h' => heq (congrArg Prod.snd h').symm)
  · rw [Node.listed_emit_added] at hl
    have hl' : d.Listed h ∨ d.Doing .announcing h := by
      rcases hl with (rfl | hl) | ha
      · exact .inr hown
      · exact .inl hl
      · exact .inr (hsub _ h ha)
    rcases hf.backed h hl' with hsession | hmade | hwithdraw
    · exact .inl hsession
    · exact .inr (.inl hmade)
    · exact .inr (.inr (hkeep _ h hwithdraw (by simp)))
  · obtain ⟨hadd, hannounce, hmade⟩ := hf.apart h (hr.imp (hsub _ h) (hsub _ h))
    exact ⟨fun h' => hadd (hsub _ h h'), fun h' => hannounce (hsub _ h h'), hmade⟩

/-- Removing a session keeps the node in order. -/
theorem Flow.removing {g : InfoHash} (hf : Flow d) (hi : d.calls[i]? = some (.removing g)) :
    Flow ((d.setCall i (.withdrawing g)).removeSession g) := by
  have hsub : ∀ r h, (d.setCall i (.withdrawing g)).Doing r h →
      d.Doing r h ∨ (r, h) = (.withdrawing, g) := fun r h hdoing =>
    (Node.doing_of_setCall hdoing).imp_right fun hrole => (Option.some.inj hrole).symm
  have hkeep : ∀ r h, d.Doing r h → r ≠ .removing → (d.setCall i (.withdrawing g)).Doing r h :=
    fun r h hdoing hr => Node.doing_setCall hi hdoing fun hrole =>
      hr (congrArg Prod.fst (Option.some.inj hrole)).symm
  have hown : d.Doing .removing g := ⟨_, List.mem_of_getElem? hi, rfl⟩
  refine ⟨fun h hs => ?_, fun h hl => ?_, fun h hr => ?_, fun h hw => ?_⟩
  · have hs' : (d.byHash h).isSome = true ∨ d.Making h := by
      rcases hs with hs | hm
      · by_cases heq : h = g
        · subst heq
          rw [Node.byHash_removeSession] at hs
          exact absurd hs (by simp)
        · rw [Node.byHash_removeSession_of_ne heq] at hs
          exact .inl hs
      · exact .inr hm
    exact (hf.shown h hs').imp_right fun ha => hkeep _ h ha (by decide)
  · have hl' : d.Listed h ∨ d.Doing .announcing h :=
      hl.imp_right fun ha => (hsub _ h ha).resolve_right (by simp)
    by_cases heq : h = g
    · subst heq
      exact .inr (.inr (Node.doing_setCall_new hi rfl))
    · rcases hf.backed h hl' with hsession | hmade | hwithdraw
      · exact .inl (by rw [Node.byHash_removeSession_of_ne heq]; exact hsession)
      · exact .inr (.inl hmade)
      · exact .inr (.inr (hkeep _ h hwithdraw (by decide)))
  · have hr' : d.Doing .removing h ∨ d.Doing .withdrawing h := by
      rcases hr with hr | hr
      · exact .inl ((hsub _ h hr).resolve_right (by simp))
      · rcases hsub _ h hr with hr | heq
        · exact .inr hr
        · obtain rfl : h = g := congrArg Prod.snd heq
          exact .inl hown
    obtain ⟨hadd, hannounce, hmade⟩ := hf.apart h hr'
    exact ⟨fun h' => hadd ((hsub _ h h').resolve_right (by simp)),
      fun h' => hannounce ((hsub _ h h').resolve_right (by simp)), hmade⟩
  · by_cases heq : h = g
    · subst heq
      exact Node.byHash_removeSession h
    · have hw' : d.Doing .withdrawing h :=
        (hsub _ h hw).resolve_right fun h' => heq (congrArg Prod.snd h')
      rw [Node.byHash_removeSession_of_ne heq]
      exact hf.gone h hw'

/-- Withdrawing a torrent keeps the node in order. -/
theorem Flow.withdrawing {g : InfoHash} {reply : Except String Response} (hf : Flow d)
    (hi : d.calls[i]? = some (.withdrawing g)) :
    Flow ((d.setCall i (.finished reply)).emit (.torrentRemoved g.display)) := by
  have hsub : ∀ r h, (d.setCall i (.finished reply)).Doing r h → d.Doing r h :=
    fun r h hdoing => (Node.doing_of_setCall hdoing).resolve_right (by simp [Call.role])
  have hkeep : ∀ r h, d.Doing r h → (r, h) ≠ (.withdrawing, g) →
      (d.setCall i (.finished reply)).Doing r h :=
    fun r h hdoing hne => Node.doing_setCall hi hdoing fun hrole => hne (Option.some.inj hrole).symm
  have hown : d.Doing .withdrawing g := ⟨_, List.mem_of_getElem? hi, rfl⟩
  obtain ⟨-, hunannounced, hunmade⟩ := hf.apart g (.inr hown)
  have hgone := hf.gone g hown
  refine ⟨fun h hs => ?_, fun h hl => ?_, fun h hr => ?_, fun h hw => hf.gone h (hsub _ h hw)⟩
  · have hne : g ≠ h := by
      rintro rfl
      rcases hs with hs | hm
      · exact absurd (hgone ▸ hs : (none : Option TorrentFile).isSome = true) (by simp)
      · exact hunmade hm
    rw [Node.listed_emit_removed]
    rcases hf.shown h hs with hl | ha
    · exact .inl ⟨hne, hl⟩
    · exact .inr (hkeep _ h ha (by simp))
  · rw [Node.listed_emit_removed] at hl
    have hne : g ≠ h := by
      rintro rfl
      rcases hl with ⟨hne, -⟩ | ha
      · exact hne rfl
      · exact hunannounced (hsub _ _ ha)
    rcases hf.backed h (hl.imp And.right (hsub _ h)) with hsession | hmade | hwithdraw
    · exact .inl hsession
    · exact .inr (.inl hmade)
    · exact .inr (.inr (hkeep _ h hwithdraw fun h' => hne (congrArg Prod.snd h').symm))
  · obtain ⟨hadd, hannounce, hmade⟩ := hf.apart h (hr.imp (hsub _ h) (hsub _ h))
    exact ⟨fun h' => hadd (hsub _ h h'), fun h' => hannounce (hsub _ h h'), hmade⟩

/-- Every step of a request keeps the flow. -/
theorem Flow.stepCall {c : Call} {outcome : Except String Unit} {d' : Node} (hf : Flow d)
    (hi : d.calls[i]? = some c) (h : Daemon.stepCall d i outcome c = some d') : Flow d' := by
  have hinert : ∀ {c new : Call}, d.calls[i]? = some c → c.role = none → new.role = none →
      Flow (d.setCall i new) := fun hi hold hnew =>
    hf.setCall hi (fun h => by simp [hold]) (.inl hnew)
  cases c with
  | checking item =>
    have hadding : ∀ h, (Call.checking item).role ≠ some (.announcing, h) ∧
        (Call.checking item).role ≠ some (.withdrawing, h) := by simp [Call.role]
    rw [Daemon.stepCall] at h
    split at h
    · exact Option.some.inj h ▸ hf.setCall hi hadding (.inl rfl)
    · exact Option.some.inj h ▸ hf.setCall hi hadding (.inr rfl)
  | sending item =>
    rw [Daemon.stepCall] at h
    split at h
    · exact Option.some.inj h ▸ hf.sending hi
    · contradiction
  | announcing item => exact Option.some.inj h ▸ hf.announcing hi
  | removing g => exact Option.some.inj h ▸ hf.removing hi
  | withdrawing g => exact Option.some.inj h ▸ hf.withdrawing hi
  | pausing g =>
    refine Option.some.inj h ▸ hinert hi rfl ?_
    unfold withSession
    split <;> rfl
  | suspending g =>
    refine Option.some.inj h ▸ hinert hi rfl ?_
    unfold afterTransition
    split <;> rfl
  | reporting g =>
    refine Option.some.inj h ▸ (hinert hi rfl rfl).congr rfl (fun _ _ => Iff.rfl) (fun _ => Iff.rfl)
      fun h' => Node.listed_emit_keep fun entry => by simp [Event.effect]
  | resuming g =>
    refine Option.some.inj h ▸ hinert hi rfl ?_
    unfold withSession
    split <;> rfl
  | restarting g =>
    refine Option.some.inj h ▸ hinert hi rfl ?_
    unfold afterTransition
    split <;> rfl
  | finished reply => contradiction

end FlowCalls

section FlowSteps

variable {d d' : Node}

/-- A request that starts has the role of its first step. -/
theorem Node.doing_request {c : Call} {r : Role} {h : InfoHash} :
    Node.Doing { d with calls := d.calls ++ [c] } r h ↔ d.Doing r h ∨ c.role = some (r, h) := by
  simp only [Node.Doing, List.mem_append, List.mem_singleton, or_and_right, exists_or,
    exists_eq_left]

/-- The first step of a request: it adds or removes a torrent, looks for the session that it is
to pause or resume, or is answered at once. -/
theorem Request.start_cases (r : Request) :
    (∃ item, r.start = .checking item) ∨ (∃ h, r.start = .removing h) ∨
      (∃ h, r.start = .pausing h) ∨ (∃ h, r.start = .resuming h) ∨
      ∃ reply, r.start = .finished reply := by
  have hadd : ∀ torrent mode, (∃ item, startAdd torrent mode = .checking item) ∨
      ∃ reply, startAdd torrent mode = .finished reply := by
    intro torrent mode
    cases torrent with
    | error e => exact .inr ⟨_, rfl⟩
    | ok torrent => exact .inl ⟨_, rfl⟩
  have hwith : ∀ text (next : InfoHash → Call), (∃ h, startWith text next = next h) ∨
      ∃ reply, startWith text next = .finished reply := by
    intro text next
    unfold startWith
    split
    · exact .inr ⟨_, rfl⟩
    · exact .inl ⟨_, rfl⟩
  cases r with
  | addDownload torrent userSpace =>
    exact (hadd torrent _).imp_right fun h => .inr (.inr (.inr h))
  | addSeed torrent path => exact (hadd torrent _).imp_right fun h => .inr (.inr (.inr h))
  | removeTorrent text =>
    exact .inr ((hwith text .removing).imp_right fun h => .inr (.inr h))
  | pauseSession text => exact .inr (.inr ((hwith text .pausing).imp_right .inr))
  | resumeSession text => exact .inr (.inr (.inr (hwith text .resuming)))

/-- A request starts by checking a torrent, by removing one, or without a role. -/
theorem Request.start_roles (r : Request) :
    (∃ item, r.start = .checking item) ∨ (∃ h, r.start = .removing h) ∨ r.start.role = none := by
  rcases r.start_cases with h | h | ⟨h, hstart⟩ | ⟨h, hstart⟩ | ⟨reply, hstart⟩
  · exact .inl h
  · exact .inr (.inl h)
  all_goals exact .inr (.inr (by rw [hstart]; rfl))

/-- A new request keeps the node in order. -/
theorem Flow.request {nameOf : InfoHash → String} {r : Request} (hf : Flow d)
    (hcare : Careful nameOf d (.request r)) : Flow { d with calls := d.calls ++ [r.start] } := by
  rw [Careful] at hcare
  rcases r.start_roles with ⟨item, hstart⟩ | ⟨g, hstart⟩ | hnone
  · rw [hstart] at hcare ⊢
    refine ⟨fun h hs => ?_, fun h hl => ?_, fun h hr => ?_, fun h hw => ?_⟩
    all_goals simp only [Node.doing_request, Call.role, Option.some.injEq, Prod.mk.injEq,
      reduceCtorEq, false_and, or_false, true_and] at *
    · exact hf.shown h hs
    · exact hf.backed h hl
    · obtain ⟨hadd, hrest⟩ := hf.apart h hr
      refine ⟨not_or.mpr ⟨hadd, fun heq => ?_⟩, hrest⟩
      subst heq
      exact hr.elim hcare.2.1 hcare.2.2
    · exact hf.gone h hw
  · rw [hstart] at hcare ⊢
    refine ⟨fun h hs => ?_, fun h hl => ?_, fun h hr => ?_, fun h hw => ?_⟩
    all_goals simp only [Node.doing_request, Call.role, Option.some.injEq, Prod.mk.injEq,
      reduceCtorEq, false_and, or_false, true_and] at *
    · exact hf.shown h hs
    · exact hf.backed h hl
    · rcases hr with (hr | rfl) | hr
      · exact hf.apart h (.inl hr)
      · exact hcare
      · exact hf.apart h (.inr hr)
    · exact hf.gone h hw
  · exact hf.congr rfl (fun r h => by rw [Node.doing_request, hnone]; simp) (fun _ => Iff.rfl)
      fun _ => Iff.rfl

/-- Inserting a session keeps the node in order. -/
theorem Flow.insert {item : QueuedTorrent} (hf : Flow d) (hworker : d.worker = .inserting item) :
    Flow (d.insertSession item) := by
  have hmade : d.made = item :: d.queue := by
    rw [Node.made, hworker]
    rfl
  have hmaking : ∀ h, d.Making h ↔ item.torrent.infoHash = h ∨ (d.insertSession item).Making h := by
    intro h
    have hrest : (d.insertSession item).made = d.queue := rfl
    simp [Node.Making, hmade, hrest]
  have hown : d.Making item.torrent.infoHash := (hmaking _).mpr (.inl rfl)
  refine ⟨fun h hs => ?_, fun h hl => ?_, fun h hr => ?_, fun h hw => ?_⟩
  · by_cases heq : h = item.torrent.infoHash
    · exact hf.shown h (.inr (heq ▸ hown))
    · rw [Node.byHash_insertSession_of_ne heq] at hs
      exact hf.shown h (hs.imp_right fun hm => (hmaking h).mpr (.inr hm))
  · by_cases heq : h = item.torrent.infoHash
    · subst heq
      exact .inl (by rw [Node.byHash_insertSession]; rfl)
    · rw [Node.byHash_insertSession_of_ne heq]
      rcases hf.backed h hl with hsession | hm | hwithdraw
      · exact .inl hsession
      · exact .inr (.inl (((hmaking h).mp hm).resolve_left (Ne.symm heq)))
      · exact .inr (.inr hwithdraw)
  · obtain ⟨hadd, hannounce, hm⟩ := hf.apart h hr
    exact ⟨hadd, hannounce, fun h' => hm ((hmaking h).mpr (.inr h'))⟩
  · have hne : h ≠ item.torrent.infoHash := by
      rintro rfl
      exact (hf.apart _ (.inr hw)).2.2 hown
    rw [Node.byHash_insertSession_of_ne hne]
    exact hf.gone h hw

end FlowSteps

/-! ## Keeping the names -/

/-- A torrent that has the name that belongs to its hash. -/
def Named (nameOf : InfoHash → String) (t : TorrentFile) : Prop := t.name = nameOf t.infoHash

/-- What a request will say about names. -/
def Call.Names (nameOf : InfoHash → String) : Call → Prop
  | .checking item => Named nameOf item.torrent
  | .sending item => Named nameOf item.torrent
  | .announcing item => Named nameOf item.torrent
  | .reporting h => nameOf h = ""
  | .removing _ | .withdrawing _ | .pausing _ | .suspending _ | .resuming _ | .restarting _
  | .finished _ => True

/-- An event that touches no entry, or changes one and gives it its name. -/
def Harmless (nameOf : InfoHash → String) (e : Event) : Prop :=
  e.touches = none ∨ ∃ h state, e = .sessionStateChanged h.display (nameOf h) state

/-- An entry of the table of the clients that has its key and its name. -/
def Entered (nameOf : InfoHash → String) (k : String) (t : Torrent) : Prop :=
  ∃ h, k = h.display ∧ t.infoHash = k ∧ t.name = nameOf h

/-- All names are those that belong to the hashes. -/
structure Names (nameOf : InfoHash → String) (d : Node) : Prop where
  sessions : ∀ h t, d.byHash h = some t → t.name = nameOf h
  made : ∀ item ∈ d.made, Named nameOf item.torrent
  reporters : ∀ t ∈ d.reporters, Named nameOf t
  calls : ∀ c ∈ d.calls, c.Names nameOf
  events : ∀ e ∈ d.forwarder.events, Harmless nameOf e
  entries : ∀ k t, d.ipc.get k = some t → Entered nameOf k t

/-- What every careful step keeps. -/
structure Consistent (nameOf : InfoHash → String) (d : Node) : Prop where
  flow : Flow d
  names : Names nameOf d

section NamesSteps

variable {nameOf : InfoHash → String} {d d' : Node}

/-- A node starts with the right names. -/
theorem names_start (cached : List CachingMode) : Names nameOf (.start cached) where
  sessions _ _ h := absurd h (by simp [Node.start])
  made _ h := absurd h List.not_mem_nil
  reporters _ h := absurd h List.not_mem_nil
  calls _ h := absurd h List.not_mem_nil
  events _ h := absurd h List.not_mem_nil
  entries k t h := absurd h (by simp [Node.start])

/-- A torrent that is added is entered with its key and its name. -/
theorem entries_apply_added {s : IpcState} {g : InfoHash} {name : String} {state : TorrentState}
    (hs : ∀ k t, s.get k = some t → Entered nameOf k t) (hname : name = nameOf g) :
    ∀ k t, (s.apply (.torrentAdded g.display name state)).1.get k = some t →
      Entered nameOf k t := by
  intro k t h
  rw [IpcState.get_apply] at h
  split at h
  · rename_i hk
    obtain rfl := Option.some.inj hk
    obtain rfl := Option.some.inj h
    exact ⟨g, rfl, rfl, hname⟩
  · exact hs k t h

/-- A removal keeps the names of the entries. -/
theorem entries_apply_removed {s : IpcState} {g : InfoHash}
    (hs : ∀ k t, s.get k = some t → Entered nameOf k t) :
    ∀ k t, (s.apply (.torrentRemoved g.display)).1.get k = some t → Entered nameOf k t := by
  intro k t h
  rw [IpcState.get_apply] at h
  split at h
  · exact absurd h (by simp [Event.effect])
  · exact hs k t h

/-- A harmless event keeps the names of the entries. -/
theorem entries_apply_harmless {s : IpcState} {e : Event}
    (hs : ∀ k t, s.get k = some t → Entered nameOf k t) (he : Harmless nameOf e) :
    ∀ k t, (s.apply e).1.get k = some t → Entered nameOf k t := by
  intro k t h
  rw [IpcState.get_apply] at h
  split at h
  · rename_i hk
    rcases he with hnone | ⟨g, state, rfl⟩
    · exact absurd (hnone.symm.trans hk) (by simp)
    · obtain ⟨t', ht', rfl⟩ := Option.map_eq_some_iff.mp h
      obtain ⟨g', rfl, hkey, -⟩ := hs k t' ht'
      obtain rfl := InfoHash.display_injective (Option.some.inj hk)
      exact ⟨g, rfl, hkey, rfl⟩
  · exact hs k t h

/-- Only the entry of the request changes when it moves on. -/
theorem Names.setCall {i : Nat} {new : Call} (hn : Names nameOf d) (hnew : new.Names nameOf) :
    Names nameOf (d.setCall i new) :=
  { hn with calls := forall_mem_set hn.calls hnew }

/-- Every step of a request keeps the names. -/
theorem Names.stepCall {i : Nat} {c : Call} {outcome : Except String Unit} (hn : Names nameOf d)
    (hi : d.calls[i]? = some c) (hcare : Careful nameOf d (.advance i outcome))
    (h : Daemon.stepCall d i outcome c = some d') : Names nameOf d' := by
  have hc := hn.calls c (List.mem_of_getElem? hi)
  rw [Careful, hi] at hcare
  cases c with
  | checking item =>
    rw [Daemon.stepCall] at h
    split at h
    · exact Option.some.inj h ▸ hn.setCall trivial
    · exact Option.some.inj h ▸ hn.setCall hc
  | sending item =>
    rw [Daemon.stepCall] at h
    split at h
    · obtain rfl := Option.some.inj h
      have hcalls := (hn.setCall hc : Names nameOf (d.setCall i (.announcing item))).calls
      refine { hn with calls := hcalls, made := fun item' hmem => ?_ }
      rcases List.mem_append.mp hmem with hmem | hmem
      · exact hn.made item' (List.mem_append_left _ hmem)
      · rcases List.mem_append.mp hmem with hmem | hmem
        · exact hn.made item' (List.mem_append_right _ hmem)
        · rw [List.mem_singleton.mp hmem]
          exact hc
    · contradiction
  | announcing item =>
    obtain rfl := Option.some.inj h
    exact { hn with
      calls := forall_mem_set hn.calls trivial
      entries := entries_apply_added hn.entries hc }
  | removing g =>
    obtain rfl := Option.some.inj h
    refine { hn with calls := forall_mem_set hn.calls trivial, sessions := fun h' t ht => ?_ }
    by_cases heq : h' = g
    · rw [heq, Node.byHash_removeSession] at ht
      contradiction
    · rw [Node.byHash_removeSession_of_ne heq] at ht
      exact hn.sessions h' t ht
  | withdrawing g =>
    obtain rfl := Option.some.inj h
    exact { hn with
      calls := forall_mem_set hn.calls trivial
      entries := entries_apply_removed hn.entries }
  | pausing g =>
    refine Option.some.inj h ▸ hn.setCall ?_
    unfold withSession
    split <;> trivial
  | suspending g =>
    refine Option.some.inj h ▸ hn.setCall ?_
    cases outcome with
    | error e => trivial
    | ok u => exact hcare rfl
  | reporting g =>
    obtain rfl := Option.some.inj h
    have hharmless : Harmless nameOf (.sessionStateChanged g.display "" .paused) :=
      .inr ⟨g, .paused, by rw [hc]⟩
    exact { hn with
      calls := forall_mem_set hn.calls trivial
      entries := entries_apply_harmless hn.entries hharmless }
  | resuming g =>
    refine Option.some.inj h ▸ hn.setCall ?_
    unfold withSession
    split <;> trivial
  | restarting g =>
    refine Option.some.inj h ▸ hn.setCall ?_
    unfold afterTransition
    split <;> trivial
  | finished reply => contradiction

/-- What a session reports gives its torrent the name it has. -/
theorem harmless_toEvent {magnet : TorrentFile → String} {t : TorrentFile} (ht : Named nameOf t)
    (event : SessionEvent) : Harmless nameOf (event.toEvent magnet t) := by
  cases event with
  | pieceVerified totalPieces current => exact .inr ⟨_, _, by rw [SessionEvent.toEvent, ht]⟩
  | seedStarted => exact .inl rfl
  | idle => exact .inr ⟨_, _, by rw [SessionEvent.toEvent, ht]⟩
  | pieceDownloaded totalPieces current => exact .inr ⟨_, _, by rw [SessionEvent.toEvent, ht]⟩
  | downloadCompleted resourcePath => exact .inl rfl

/-- Handing on a harmless event leaves harmless ones only. -/
theorem events_push {f : Forwarder} {e : Event} (hf : ∀ e ∈ f.events, Harmless nameOf e)
    (he : Harmless nameOf e) : ∀ e' ∈ (f.push e).events, Harmless nameOf e' := by
  cases f with
  | absent => exact hf
  | ending held => exact hf
  | stopped => exact hf
  | following held pending =>
    rw [Forwarder.push]
    split
    · rw [Forwarder.events, ← List.append_assoc]
      exact forall_mem_concat hf he
    · cases held with
      | none => exact fun e' he' => absurd he' List.not_mem_nil
      | some held =>
        intro e' he'
        obtain rfl := List.mem_singleton.mp he'
        exact hf e' List.mem_cons_self

/-- Events that are harmless leave the listed torrents. -/
theorem Harmless.keep {e : Event} (he : Harmless nameOf e) (s : IpcState) (k : String) :
    ((s.apply e).1.get k).isSome = (s.get k).isSome := by
  rw [IpcState.get_apply]
  split
  · rename_i hk
    rcases he with hnone | ⟨g, state, rfl⟩
    · exact absurd (hnone.symm.trans hk) (by simp)
    · simp [Event.effect]
  · rfl

/-- A new request keeps the names. -/
theorem Names.request {r : Request} (hn : Names nameOf d) (hcare : Careful nameOf d (.request r)) :
    Names nameOf { d with calls := d.calls ++ [r.start] } := by
  refine { hn with calls := forall_mem_concat hn.calls ?_ }
  rw [Careful] at hcare
  rcases r.start_cases with ⟨item, hstart⟩ | ⟨g, hstart⟩ | ⟨g, hstart⟩ | ⟨g, hstart⟩ |
    ⟨reply, hstart⟩
  · rw [hstart] at hcare ⊢
    exact hcare.1
  all_goals
    rw [hstart]
    trivial

/-- Inserting a session keeps the names. -/
theorem Names.insert {item : QueuedTorrent} (hn : Names nameOf d)
    (hworker : d.worker = .inserting item) : Names nameOf (d.insertSession item) := by
  have hmade : d.made = item :: d.queue := by rw [Node.made, hworker]; rfl
  refine { hn with sessions := fun h t ht => ?_, made := fun item' h => ?_ }
  · by_cases heq : h = item.torrent.infoHash
    · rw [heq, Node.byHash_insertSession] at ht
      obtain rfl := Option.some.inj ht
      rw [heq]
      exact hn.made item (hmade ▸ List.mem_cons_self ..)
    · rw [Node.byHash_insertSession_of_ne heq] at ht
      exact hn.sessions h t ht
  · exact hn.made item' (hmade ▸ List.mem_cons_of_mem _ h)

/-- The torrents on their way may move along, as long as they stay the same. -/
theorem Consistent.move {worker : Worker} {queue : List QueuedTorrent}
    {reporters : List TorrentFile} (hd : Consistent nameOf d)
    (hmade : Node.made { d with worker := worker, queue := queue } = d.made)
    (hreporters : ∀ t ∈ reporters, Named nameOf t) :
    Consistent nameOf { d with worker := worker, queue := queue, reporters := reporters } := by
  obtain ⟨hf, hn⟩ := hd
  refine ⟨hf.congr rfl (fun _ _ => Iff.rfl) (fun h => ?_) fun _ => Iff.rfl, ?_⟩
  · have hmade' : Node.made { d with worker := worker, queue := queue, reporters := reporters } =
        d.made := hmade
    rw [Node.Making, Node.Making, hmade']
  · exact { hn with
      made := fun item h => hn.made item (hmade ▸ h)
      reporters := hreporters }

/-- The forwarder may hold other events, as long as they are harmless. -/
theorem Consistent.follow {f : Forwarder} (hd : Consistent nameOf d)
    (hf : ∀ e ∈ f.events, Harmless nameOf e) : Consistent nameOf { d with forwarder := f } where
  flow := hd.flow.congr rfl (fun _ _ => Iff.rfl) (fun _ => Iff.rfl) fun _ => Iff.rfl
  names := { hd.names with events := hf }

/-- A harmless event may be taken over. -/
theorem Consistent.emit {e : Event} (hd : Consistent nameOf d) (he : Harmless nameOf e) :
    Consistent nameOf (d.emit e) := by
  refine ⟨hd.flow.congr rfl (fun _ _ => Iff.rfl) (fun _ => Iff.rfl) fun h => ?_, ?_⟩
  · simp only [Node.Listed, Node.emit, he.keep]
  · exact { hd.names with entries := entries_apply_harmless hd.names.entries he }

/-- Every careful step keeps the flow and the names. -/
theorem listing_step {magnet : TorrentFile → String} {a : Label} (hd : Consistent nameOf d)
    (hcare : Careful nameOf d a) (hstep : step magnet d a = some d') : Consistent nameOf d' := by
  cases a with
  | request r =>
    obtain rfl := Option.some.inj hstep
    exact ⟨hd.flow.request hcare, hd.names.request hcare⟩
  | advance i outcome =>
    obtain ⟨c, hi, hc⟩ := Option.bind_eq_some_iff.mp hstep
    exact ⟨hd.flow.stepCall hi hc, hd.names.stepCall hi hcare hc⟩
  | restore => exact absurd hcare id
  | receive =>
    simp only [step, stepReceive] at hstep
    split at hstep
    · rename_i item queue hworker hqueue
      obtain rfl := Option.some.inj hstep
      have hmade : d.made = item :: queue := by rw [Node.made, hworker, hqueue]; rfl
      have hitem : Named nameOf item.torrent :=
        hd.names.made item (hmade ▸ List.mem_cons_self ..)
      exact hd.move hmade.symm (forall_mem_concat hd.names.reporters hitem)
    · contradiction
  | create outcome =>
    -- a session that could not be created would drop its torrent
    obtain rfl : outcome = .ok () := hcare
    simp only [step, stepCreate] at hstep
    split at hstep
    · rename_i item hworker
      obtain rfl := Option.some.inj hstep
      have hmade : d.made = item :: d.queue := by rw [Node.made, hworker]; rfl
      exact hd.move hmade.symm hd.names.reporters
    all_goals contradiction
  | insert =>
    simp only [step, stepInsert] at hstep
    split at hstep
    · rename_i item hworker
      obtain rfl := Option.some.inj hstep
      exact ⟨hd.flow.insert hworker, hd.names.insert hworker⟩
    all_goals contradiction
  | report i event =>
    obtain ⟨t, ht, rfl⟩ := Option.map_eq_some_iff.mp hstep
    have hnamed := hd.names.reporters t (List.mem_of_getElem? ht)
    exact hd.follow (events_push hd.names.events (harmless_toEvent hnamed event))
  | subscribe =>
    simp only [step] at hstep
    split at hstep
    · obtain rfl := Option.some.inj hstep
      exact hd.follow fun e he => absurd he List.not_mem_nil
    all_goals contradiction
  | take =>
    simp only [step, stepTake] at hstep
    split at hstep
    · rename_i e pending hforwarder
      obtain rfl := Option.some.inj hstep
      exact hd.follow fun e' he' => hd.names.events e' (by rw [hforwarder]; exact he')
    · contradiction
  | forward =>
    simp only [step, stepForward] at hstep
    split at hstep
    · rename_i e pending hforwarder
      obtain rfl := Option.some.inj hstep
      have he : Harmless nameOf e :=
        hd.names.events e (by rw [hforwarder]; exact List.mem_cons_self ..)
      refine Consistent.emit (hd.follow fun e' he' => ?_) he
      exact hd.names.events e' (by rw [hforwarder]; exact List.mem_cons_of_mem _ he')
    · rename_i e hforwarder
      obtain rfl := Option.some.inj hstep
      have he : Harmless nameOf e :=
        hd.names.events e (by rw [hforwarder]; exact List.mem_singleton_self e)
      exact Consistent.emit (hd.follow fun e' he' => absurd he' List.not_mem_nil) he
    · contradiction

/-- Where nothing is in progress, the listing is that of the sessions. -/
theorem listing_eq_sessions (hd : Consistent nameOf d) (hquiet : d.Quiet) :
    d.listing = d.sessions := by
  obtain ⟨hf, hn⟩ := hd
  obtain ⟨hqueue, hworker, hcalls, -⟩ := hquiet
  have hidle : ∀ r h, ¬ d.Doing r h := by
    rintro r h ⟨c, hc, hrole⟩
    have hfinished := hcalls c hc
    cases c with
    | finished reply => exact absurd hrole (by simp [Call.role])
    | _ => exact absurd hfinished (by simp [Call.isFinished])
  have hmade : ∀ h, ¬ d.Making h := by
    rintro h ⟨item, hitem, -⟩
    rw [Node.made, hworker, hqueue] at hitem
    exact absurd hitem List.not_mem_nil
  ext entry
  constructor
  · rintro ⟨k, t, ht, rfl⟩
    obtain ⟨h, rfl, hkey, hname⟩ := hn.entries k t ht
    have hlisted : d.Listed h := by rw [Node.Listed, ht]; rfl
    rcases hf.backed h (.inl hlisted) with hsession | hm | hw
    · obtain ⟨session, hs⟩ := Option.isSome_iff_exists.mp hsession
      exact ⟨h, session, hs, by rw [hkey, hname, hn.sessions h session hs]⟩
    · exact absurd hm (hmade h)
    · exact absurd hw (hidle _ h)
  · rintro ⟨h, session, hs, rfl⟩
    have hlisted := (hf.shown h (.inl (by rw [hs]; rfl))).resolve_right (hidle _ h)
    obtain ⟨t, ht⟩ := Option.isSome_iff_exists.mp hlisted
    obtain ⟨g, hg, hkey, hname⟩ := hn.entries _ t ht
    obtain rfl := InfoHash.display_injective hg
    exact ⟨_, t, ht, by rw [hkey, hname, hn.sessions h session hs]⟩

end NamesSteps

/-- In every run of careful steps, from any cache: whenever nothing is in progress, the torrents
that the clients are shown are exactly those that have a session, with their names. -/
theorem listing_of_careful {magnet : TorrentFile → String} (nameOf : InfoHash → String)
    {cached : List CachingMode} {as : List Label} {d : Node}
    (hrun : run (step magnet) (.start cached) as = some d)
    (hcare : Along (step magnet) (Careful nameOf) (.start cached) as) (hquiet : d.Quiet) :
    d.listing = d.sessions := by
  have hinv : Consistent nameOf d :=
    run_invariant_along (fun _ _ _ h hcare hstep => listing_step h hcare hstep)
      ⟨flow_start cached, names_start cached⟩ hcare hrun
  exact listing_eq_sessions hinv hquiet

/-! ## Sessions that are not listed, and torrents that are listed without one -/

instance (d : Node) (r : Role) (h : InfoHash) : Decidable (d.Doing r h) :=
  inferInstanceAs (Decidable (∃ c ∈ d.calls, c.role = some (r, h)))

instance (d : Node) (h : InfoHash) : Decidable (d.Making h) :=
  inferInstanceAs (Decidable (∃ item ∈ d.made, item.torrent.infoHash = h))

instance Careful.decidable (nameOf : InfoHash → String) (d : Node) :
    (a : Label) → Decidable (Careful nameOf d a)
  | .restore => .isFalse id
  | .create outcome => inferInstanceAs (Decidable (outcome = .ok ()))
  | .request r =>
      match hstart : r.start with
      | .checking item =>
          decidable_of_iff (item.torrent.name = nameOf item.torrent.infoHash ∧
            ¬ d.Doing .removing item.torrent.infoHash ∧
            ¬ d.Doing .withdrawing item.torrent.infoHash) (by rw [Careful, hstart])
      | .removing h =>
          decidable_of_iff (¬ d.Doing .adding h ∧ ¬ d.Doing .announcing h ∧ ¬ d.Making h)
            (by rw [Careful, hstart])
      | .sending _ | .announcing _ | .withdrawing _ | .pausing _ | .suspending _ | .reporting _
      | .resuming _ | .restarting _ | .finished _ => .isTrue (by simp [Careful, hstart])
  | .advance i outcome =>
      match hi : d.calls[i]? with
      | some (.suspending h) =>
          decidable_of_iff (outcome = .ok () → nameOf h = "") (by rw [Careful, hi])
      | none | some (.checking _) | some (.sending _) | some (.announcing _) | some (.removing _)
      | some (.withdrawing _) | some (.pausing _) | some (.reporting _) | some (.resuming _)
      | some (.restarting _) | some (.finished _) => .isTrue (by simp [Careful, hi])
  | .receive | .insert | .report _ _ | .subscribe | .take | .forward => .isTrue trivial

/-- Nothing is in progress, as a test. -/
def Node.quiet (d : Node) : Bool :=
  d.queue.isEmpty && d.worker.item.isNone && d.calls.all Call.isFinished &&
    d.forwarder.events.isEmpty

/-- Whether anything is in progress can be computed. -/
theorem Node.quiet_iff (d : Node) : d.quiet = true ↔ d.Quiet := by
  simp only [Node.quiet, Node.Quiet, Bool.and_eq_true, List.isEmpty_iff, Option.isNone_iff_eq_none,
    List.all_eq_true, and_assoc]

/-- The listing is wrong when it disagrees with the sessions about one torrent. -/
theorem Node.listing_ne {d : Node} {es : List Event} (hipc : d.ipc = IpcState.default.applyAll es)
    {h : InfoHash} (hne : (d.ipc.get h.display).map (·.name) ≠ (d.byHash h).map (·.name)) :
    d.listing ≠ d.sessions := by
  intro heq
  have hkey : ∀ {k t}, d.ipc.get k = some t → t.infoHash = k := fun ht =>
    IpcState.infoHash_of_get (by rw [← hipc]; exact ht)
  cases hentry : d.ipc.get h.display with
  | some t =>
    have hmem : (t.infoHash, t.name) ∈ d.sessions := heq ▸ ⟨_, t, hentry, rfl⟩
    obtain ⟨g, session, hs, hpair⟩ := hmem
    rw [hkey hentry, Prod.mk.injEq] at hpair
    obtain rfl := InfoHash.display_injective hpair.1
    exact hne (by rw [hentry, hs, Option.map_some, Option.map_some, hpair.2])
  | none =>
    cases hs : d.byHash h with
    | none => exact hne (by rw [hentry, hs]; rfl)
    | some session =>
      have hmem : (h.display, session.name) ∈ d.listing := heq ▸ ⟨h, session, hs, rfl⟩
      obtain ⟨k, t, ht, hpair⟩ := hmem
      rw [hkey ht, Prod.mk.injEq] at hpair
      rw [hpair.1, ht] at hentry
      contradiction

/-- A torrent with a name. -/
def sampleTorrent : TorrentFile := Session.Manager.sampleItem.torrent

/-- It is added and gets its session. -/
def addedRun : List Label :=
  [.subscribe, .request (.addDownload (.ok sampleTorrent) ['/', 'h']), .advance 0 (.ok ()),
    .advance 0 (.ok ()), .advance 0 (.ok ()), .receive, .create (.ok ()), .insert]

/-- The session then reports, and another torrent is asked to be removed. -/
def reportedRun : List Label :=
  addedRun ++ [.report 0 .idle, .take, .forward,
    .request (.removeTorrent ((Session.Routing.sampleHash 2).display)), .advance 1 (.ok ()),
    .advance 1 (.ok ())]

/-- In the sample run the listing agrees with the sessions. -/
theorem listing_of_careful_reported : ∃ d,
    run (step fun _ => "") (.start []) reportedRun = some d ∧ d.Quiet ∧
      (d.byHash sampleTorrent.infoHash).isSome = true ∧ d.listing = d.sessions := by
  have hrun : ((run (step fun _ => "") (.start []) reportedRun).any fun d =>
      decide (d.quiet = true ∧ (d.byHash sampleTorrent.infoHash).isSome = true)) = true := by
    decide +kernel
  obtain ⟨d, hd, hquiet, hsession⟩ := exists_of_any hrun
  have hquiet := d.quiet_iff.mp hquiet
  exact ⟨d, hd, hquiet, hsession,
    listing_of_careful (fun _ => "a") hd (by decide +kernel) hquiet⟩

/-- A session is restored from the cache. -/
def restoredRun : List Label := [.restore, .receive, .create (.ok ()), .insert]

/-- The session of a torrent that was added cannot be created. -/
def failedRun : List Label := addedRun.take 6 ++ [.create (.error "")]

/-- A torrent is paused. -/
def pausedRun : List Label :=
  addedRun ++ [.request (.pauseSession sampleTorrent.infoHash.display), .advance 1 (.ok ()),
    .advance 1 (.ok ()), .advance 1 (.ok ())]

/-- A run that ends with nothing in progress and a listing that disagrees with the sessions. -/
def EndsWrong (cached : List CachingMode) (as : List Label) : Prop :=
  ∃ d, run (step fun _ => "") (.start cached) as = some d ∧ d.Quiet ∧ d.listing ≠ d.sessions

/-- A run that ends wrong can be recognised by its events. -/
theorem endsWrong_of_test {cached : List CachingMode} {as : List Label} (es : List Event)
    (htest : ((run (step fun _ => "") (.start cached) as).any fun d =>
      decide (d.quiet = true ∧ d.ipc = IpcState.default.applyAll es ∧
        (d.ipc.get sampleTorrent.infoHash.display).map (·.name) ≠
          (d.byHash sampleTorrent.infoHash).map (·.name))) = true) : EndsWrong cached as := by
  obtain ⟨d, hd, hquiet, hipc, hne⟩ := exists_of_any htest
  exact ⟨d, hd, d.quiet_iff.mp hquiet, Node.listing_ne hipc hne⟩

/-- The restored session is not listed, the torrent without a session is, and the paused one is
listed without its name. -/
theorem listing_wrong :
    EndsWrong [.download ['/', 'h'] sampleTorrent] restoredRun ∧ EndsWrong [] failedRun ∧
      EndsWrong [] pausedRun :=
  ⟨endsWrong_of_test [] (by decide +kernel),
    endsWrong_of_test [.torrentAdded sampleTorrent.infoHash.display "a" .pending]
      (by decide +kernel),
    endsWrong_of_test [.torrentAdded sampleTorrent.infoHash.display "a" .pending,
      .sessionStateChanged sampleTorrent.infoHash.display "" .paused] (by decide +kernel)⟩

end Bqti.Ipc.Daemon
