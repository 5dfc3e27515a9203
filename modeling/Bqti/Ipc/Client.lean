import Bqti.Core.Keyed
import Bqti.Ipc.State

/-!
# The list of torrents that a client shows

A client asks for the torrents and then subscribes to the events, so that events can happen in
between. It keeps its list up to date by the events: a new state goes to the first torrent with
the hash, and a torrent that is added is appended. The list is compared with the table of the
daemon.
-/

namespace Bqti.Ipc.Client

open Bqti.Core

/-! ## The client -/

/-- A client shows all torrents or one. -/
def relevant (infoHash : Option String) (hash : String) : Bool := infoHash.all (· == hash)

/-- A torrent whose state has changed. -/
def setState (state : TorrentState) (t : Torrent) : Torrent := { t with state := state }

@[simp] theorem infoHash_setState (state : TorrentState) (t : Torrent) :
    (setState state t).infoHash = t.infoHash := rfl

@[simp] theorem state_setState (state : TorrentState) (t : Torrent) :
    (setState state t).state = state := rfl

/-- The list after an event. -/
def follow (infoHash : Option String) (torrents : List Torrent) : Event → List Torrent
  | .torrentRemoved hash =>
      if relevant infoHash hash then torrents.filter fun t => t.infoHash ≠ hash else torrents
  | .torrentAdded hash name state =>
      if relevant infoHash hash then torrents ++ [⟨hash, name, state⟩] else torrents
  | .sessionStateChanged hash _ state =>
      if relevant infoHash hash then
        changeFirst Torrent.infoHash hash (setState state) torrents
      else torrents
  | .exposeTorrent _ _ | .downloadComplted _ _ | .error _ _ => torrents

/-- The list after the items of a stream of events, up to the first that is no event. -/
def followAll (infoHash : Option String) (torrents : List Torrent) (events : List Event) :
    List Torrent :=
  events.foldl (follow infoHash) torrents

/-- The torrents that a client starts from: asking for one that is not there is an error. -/
def select (infoHash : Option String) (torrents : List Torrent) : Except String (List Torrent) :=
  match infoHash with
  | none => .ok torrents
  | some hash =>
      if (torrents.filter fun t => t.infoHash = hash).isEmpty then
        .error ("torrent " ++ hash ++ " not found")
      else .ok (torrents.filter fun t => t.infoHash = hash)

/-- `handle_status`: the list that is shown after a listing and events. -/
def handleStatus (infoHash : Option String) (listed : List Torrent) (events : List Event) :
    Except String (List Torrent) :=
  (select infoHash listed).map fun torrents => followAll infoHash torrents events

@[simp] theorem followAll_nil (infoHash : Option String) (torrents : List Torrent) :
    followAll infoHash torrents [] = torrents := rfl

@[simp] theorem followAll_cons (infoHash : Option String) (torrents : List Torrent) (e : Event)
    (es : List Event) :
    followAll infoHash torrents (e :: es) =
      followAll infoHash (follow infoHash torrents e) es := rfl

/-- Events are followed one after the other. -/
theorem followAll_append (infoHash : Option String) (torrents : List Torrent)
    (es fs : List Event) :
    followAll infoHash torrents (es ++ fs) =
      followAll infoHash (followAll infoHash torrents es) fs :=
  List.foldl_append ..

/-! ## One torrent or all -/

/-- A client that shows one torrent shows what a client that shows all shows of it. -/
theorem follow_some (hash : String) (torrents : List Torrent) (e : Event) :
    follow (some hash) (records Torrent.infoHash hash torrents) e =
      records Torrent.infoHash hash (follow none torrents e) := by
  have hrelevant : ∀ h, relevant (some hash) h = true ↔ hash = h := fun h => by simp [relevant]
  have hall : ∀ h, relevant none h = true := fun _ => rfl
  cases e with
  | torrentRemoved h =>
    simp only [follow, hrelevant, hall, if_true]
    rw [records_filter_ne]
    split
    · rename_i heq
      subst heq
      rw [if_pos rfl, List.filter_eq_nil_iff]
      intro t ht
      simpa using (List.mem_filter.mp ht).2
    · rename_i hne
      rw [if_neg (Ne.symm hne)]
  | torrentAdded h name state =>
    simp only [follow, hrelevant, hall, if_true]
    rw [records_append, records_cons]
    split
    · rename_i heq
      rw [if_pos heq.symm]
      rfl
    · rename_i hne
      rw [if_neg (Ne.symm hne)]
      exact (List.append_nil _).symm
  | sessionStateChanged h name state =>
    simp only [follow, hrelevant, hall, if_true]
    by_cases heq : hash = h
    · subst heq
      rw [if_pos rfl, records_changeFirst_self (infoHash_setState state)]
    · rw [if_neg heq, records_changeFirst h (infoHash_setState state), if_neg (Ne.symm heq)]
  | exposeTorrent h magnet => rfl
  | downloadComplted h path => rfl
  | error h message => rfl

/-- Following one torrent shows its part of following all. -/
theorem followAll_some (hash : String) (torrents : List Torrent) (events : List Event) :
    followAll (some hash) (records Torrent.infoHash hash torrents) events =
      records Torrent.infoHash hash (followAll none torrents events) := by
  induction events generalizing torrents with
  | nil => rfl
  | cons e events ih => rw [followAll_cons, followAll_cons, follow_some, ih]

/-- For every listing and every events: the status of one torrent is refused precisely when it
is not listed, and otherwise it is its part of the status of all. -/
theorem handleStatus_some (hash : String) (listed : List Torrent) (events : List Event) :
    handleStatus (some hash) listed events =
      if ∃ t ∈ listed, t.infoHash = hash then
        (handleStatus none listed events).map fun torrents =>
          torrents.filter fun t => t.infoHash = hash
      else .error ("torrent " ++ hash ++ " not found") := by
  have hempty : (listed.filter fun t => t.infoHash = hash).isEmpty = true ↔
      ¬ ∃ t ∈ listed, t.infoHash = hash := by
    rw [List.isEmpty_iff, List.filter_eq_nil_iff]
    simp
  unfold handleStatus select
  dsimp only
  by_cases hlisted : ∃ t ∈ listed, t.infoHash = hash
  · rw [if_neg (fun h => hempty.mp h hlisted), if_pos hlisted]
    exact congrArg Except.ok (followAll_some hash listed events)
  · rw [if_pos (hempty.mpr hlisted), if_neg hlisted]
    rfl

/-! ## The list and the table -/

/-- The states that a list shows for a hash. -/
def states (torrents : List Torrent) (hash : String) : List TorrentState :=
  (records Torrent.infoHash hash torrents).map (·.state)

/-- A list shows the torrents of a table, each once and in its state. -/
def Shows (torrents : List Torrent) (s : IpcState) : Prop :=
  ∀ hash, states torrents hash = ((s.get hash).map (·.state)).toList

/-- No torrent is added that is there. -/
def AddsNew : IpcState → List Event → Prop
  | _, [] => True
  | s, e :: events =>
      (∀ hash name state, e = .torrentAdded hash name state → s.get hash = none) ∧
        AddsNew (s.apply e).1 events

/-- What an event does to the states of a hash, unless it adds a torrent that is there. -/
theorem states_follow {torrents : List Torrent} {hash : String} {entry : Option Torrent}
    (h : states torrents hash = (entry.map (·.state)).toList) {e : Event}
    (hnew : ∀ name state, e = .torrentAdded hash name state → entry = none) :
    states (follow none torrents e) hash =
      ((if e.touches = some hash then e.effect entry else entry).map (·.state)).toList := by
  have hall : ∀ g, relevant none g = true := fun _ => rfl
  rw [states] at h ⊢
  cases e with
  | torrentRemoved g =>
    simp only [follow, hall, if_true, Event.touches, Option.some.injEq]
    rw [records_filter_ne]
    split
    · rfl
    · exact h
  | torrentAdded g name state =>
    simp only [follow, hall, if_true, Event.touches, Option.some.injEq]
    rw [records_append, records_cons]
    dsimp only
    split
    · rename_i heq
      subst heq
      obtain rfl := hnew name state rfl
      rw [List.map_append, h]
      rfl
    · rw [List.map_append, h]
      exact List.append_nil _
  | sessionStateChanged g name state =>
    simp only [follow, hall, if_true, Event.touches, Option.some.injEq]
    rw [records_changeFirst g (infoHash_setState state)]
    split
    · cases entry with
      | none =>
        have hnil : records Torrent.infoHash hash torrents = [] := List.map_eq_nil_iff.mp h
        rw [hnil]
        rfl
      | some t =>
        obtain ⟨shown, hshown, -⟩ := List.map_eq_singleton_iff.mp h
        rw [hshown]
        rfl
    · exact h
  | exposeTorrent g magnet => exact h
  | downloadComplted g path => exact h
  | error g message => exact h

/-- A list that shows a table follows it. -/
theorem shows_followAll {torrents : List Torrent} {s : IpcState} {events : List Event}
    (h : Shows torrents s) (hnew : AddsNew s events) :
    Shows (followAll none torrents events) (s.applyAll events) := by
  induction events generalizing torrents s with
  | nil => exact h
  | cons e events ih =>
    refine ih (fun hash => ?_) hnew.2
    rw [states_follow (h hash) fun name state heq => hnew.1 hash name state heq,
      IpcState.get_apply]

/-! ## Listing and snapshot -/

/-- The torrents of a table, in the order of a hash map. -/
def listing (s : IpcState) : Multiset Torrent := s.activeTorrents.entries.map (·.2)

/-- Every torrent of a table stands under its own hash. -/
def Keyed (s : IpcState) : Prop := ∀ k t, s.get k = some t → t.infoHash = k

/-- A listing has the entries under their own hashes. -/
theorem keyed_applyAll (events : List Event) : Keyed (IpcState.default.applyAll events) :=
  fun _ _ => IpcState.infoHash_of_get

/-- The entries of the table are those that are found. -/
theorem mem_entries_iff {s : IpcState} {k : String} {t : Torrent} :
    ⟨k, t⟩ ∈ s.activeTorrents.entries ↔ s.get k = some t := by
  obtain ⟨m⟩ := s
  rw [IpcState.get]
  induction m using Finmap.induction_on with
  | H m => rw [Finmap.lookup_toFinmap]; exact AList.mem_lookup_iff.symm

/-- The hashes of the torrents are the keys. -/
theorem map_infoHash_entries {s : IpcState} (h : Keyed s) :
    s.activeTorrents.entries.map (fun entry => entry.2.infoHash) =
      s.activeTorrents.entries.map (·.1) :=
  Multiset.map_congr rfl fun entry hentry => h entry.1 entry.2 (mem_entries_iff.mp hentry)

/-- The entries of the table have different keys. -/
theorem nodup_keys (s : IpcState) : (s.activeTorrents.entries.map (·.1)).Nodup :=
  Multiset.nodup_keys.mpr s.activeTorrents.nodupKeys

/-- A listing shows the state that it lists. -/
theorem shows_of_listing {s : IpcState} (h : Keyed s) {listed : List Torrent}
    (hlisted : (listed : Multiset Torrent) = listing s) : Shows listed s := by
  have hmem : ∀ t, t ∈ listed ↔ ∃ k, s.get k = some t := by
    intro t
    rw [← Multiset.mem_coe, hlisted, listing, Multiset.mem_map]
    constructor
    · rintro ⟨⟨k, t⟩, hentry, rfl⟩
      exact ⟨k, mem_entries_iff.mp hentry⟩
    · rintro ⟨k, hk⟩
      exact ⟨⟨k, t⟩, mem_entries_iff.mpr hk, rfl⟩
  have hnodup : (listed.map Torrent.infoHash).Nodup := by
    rw [← Multiset.coe_nodup, ← Multiset.map_coe, hlisted, listing, Multiset.map_map]
    have hkeys := map_infoHash_entries h
    rw [Function.comp_def, hkeys]
    exact nodup_keys s
  intro hash
  cases hget : s.get hash with
  | some t =>
    obtain rfl := h hash t hget
    rw [states, records_eq_singleton hnodup ((hmem t).mpr ⟨_, hget⟩)]
    rfl
  | none =>
    have hnil : records Torrent.infoHash hash listed = [] := by
      rw [records_eq_nil_iff]
      rintro t ht rfl
      obtain ⟨k, hk⟩ := (hmem t).mp ht
      obtain rfl := h k t hk
      rw [hget] at hk
      contradiction
    rw [states, hnil]
    rfl

/-- Of events that touch different torrents, one decides about each. -/
theorem effects_of_nodup {k : String} {events : List Event}
    (hnodup : (events.map Event.touches).Nodup) {e : Event} (he : e ∈ events)
    (hk : e.touches = some k) (entry : Option Torrent) :
    effects k events entry = e.effect entry := by
  obtain ⟨before, after, rfl⟩ := List.append_of_mem he
  rw [List.map_append, List.map_cons, List.nodup_append] at hnodup
  obtain ⟨-, hafter, hbefore⟩ := hnodup
  rw [List.nodup_cons] at hafter
  have hothers : ∀ e' ∈ before, e'.touches ≠ some k := fun e' he' heq =>
    hbefore _ (List.mem_map_of_mem he') _ List.mem_cons_self (heq.trans hk.symm)
  have hlater : ∀ e' ∈ after, e'.touches ≠ some k := fun e' he' heq =>
    hafter.1 (List.mem_map.mpr ⟨e', he', heq.trans hk.symm⟩)
  rw [← List.singleton_append, effects_append, effects_append, effects_of_not_touches hothers,
    effects_singleton, if_pos hk, effects_of_not_touches hlater]

/-- A snapshot sets the states of the torrents that are there. -/
theorem effects_snapshot {s : IpcState} (h : Keyed s) {snapshot : List Event}
    (hsnapshot : (snapshot : Multiset Event) = s.replicate) (k : String) (entry : Option Torrent) :
    effects k snapshot entry =
      match s.get k with
      | some t => entry.map (Torrent.change t.name t.state)
      | none => entry := by
  have hmem : ∀ e, e ∈ snapshot ↔
      ∃ k t, s.get k = some t ∧ e = .sessionStateChanged k t.name t.state := by
    intro e
    rw [← Multiset.mem_coe, hsnapshot, IpcState.replicate, Multiset.mem_map]
    constructor
    · rintro ⟨⟨k, t⟩, hentry, rfl⟩
      have hget := mem_entries_iff.mp hentry
      exact ⟨k, t, hget, by rw [h k t hget]⟩
    · rintro ⟨k, t, hget, rfl⟩
      exact ⟨⟨k, t⟩, mem_entries_iff.mpr hget, by rw [h k t hget]⟩
  have hnodup : (snapshot.map Event.touches).Nodup := by
    have hkeys := map_infoHash_entries h
    have htouches : (s.replicate.map Event.touches) =
        (s.activeTorrents.entries.map (·.1)).map some := by
      rw [← hkeys, IpcState.replicate, Multiset.map_map, Multiset.map_map]
      rfl
    rw [← Multiset.coe_nodup, ← Multiset.map_coe, hsnapshot, htouches]
    exact (nodup_keys s).map (Option.some_injective _)
  cases hget : s.get k with
  | some t =>
    exact effects_of_nodup hnodup ((hmem _).mpr ⟨k, t, hget, rfl⟩) rfl entry
  | none =>
    refine effects_of_not_touches (fun e he htouch => ?_) entry
    obtain ⟨k', t, hk', rfl⟩ := (hmem e).mp he
    obtain rfl := Option.some.inj htouch
    rw [hget] at hk'
    contradiction

/-- Events that add nothing. -/
theorem states_followAll {torrents : List Torrent} {hash : String} {entry : Option Torrent}
    (h : states torrents hash = (entry.map (·.state)).toList) {events : List Event}
    (hevents : ∀ e ∈ events, ∀ g name state, e ≠ .torrentAdded g name state) :
    states (followAll none torrents events) hash =
      ((effects hash events entry).map (·.state)).toList := by
  induction events generalizing torrents entry with
  | nil => exact h
  | cons e events ih =>
    rw [List.forall_mem_cons] at hevents
    have hstep := states_follow h (e := e) fun name state heq =>
      absurd heq (hevents.1 hash name state)
    rw [followAll_cons, ih hstep hevents.2, ← effects_singleton, ← effects_append]
    rfl

/-- A snapshot adds no torrent. -/
theorem snapshot_adds_nothing {s : IpcState} {snapshot : List Event}
    (hsnapshot : (snapshot : Multiset Event) = s.replicate) :
    ∀ e ∈ snapshot, ∀ g name state, e ≠ .torrentAdded g name state := by
  intro e he g name state
  rw [← Multiset.mem_coe, hsnapshot, IpcState.replicate, Multiset.mem_map] at he
  obtain ⟨entry, -, rfl⟩ := he
  simp

/-- A list that shows one table shows another one after its snapshot precisely when both have
the same torrents. -/
theorem shows_followAll_snapshot {s s' : IpcState} {torrents : List Torrent}
    {snapshot : List Event} (h : Shows torrents s) (hkeyed : Keyed s')
    (hsnapshot : (snapshot : Multiset Event) = s'.replicate) :
    Shows (followAll none torrents snapshot) s' ↔ ∀ k, (s.get k).isSome = (s'.get k).isSome := by
  refine forall_congr' fun k => ?_
  rw [states_followAll (h k) (snapshot_adds_nothing hsnapshot), effects_snapshot hkeyed hsnapshot]
  cases hget : s.get k <;> cases hget' : s'.get k <;> simp [Torrent.change]

/-- A client lists the torrents, then subscribes, takes over the snapshot and follows the events.
It shows the table of the daemon at all times, as long as no torrent is added that is there,
precisely when no torrent has come or gone between the listing and the snapshot. -/
theorem shows_handleStatus_iff {events gap snapshot : List Event} {listed : List Torrent}
    (hlisted : (listed : Multiset Torrent) = listing (IpcState.default.applyAll events))
    (hsnapshot : (snapshot : Multiset Event) =
      ((IpcState.default.applyAll events).applyAll gap).replicate) :
    (∀ later, AddsNew ((IpcState.default.applyAll events).applyAll gap) later →
      ∃ shown, handleStatus none listed (snapshot ++ later) = .ok shown ∧
        Shows shown (((IpcState.default.applyAll events).applyAll gap).applyAll later)) ↔
      ∀ k, ((IpcState.default.applyAll events).get k).isSome =
        (((IpcState.default.applyAll events).applyAll gap).get k).isSome := by
  have hshown := shows_of_listing (keyed_applyAll events) hlisted
  have hkeyed : Keyed ((IpcState.default.applyAll events).applyAll gap) := by
    have happend : (IpcState.default.applyAll events).applyAll gap =
        IpcState.default.applyAll (events ++ gap) := (List.foldl_append ..).symm
    rw [happend]
    exact keyed_applyAll (events ++ gap)
  rw [← shows_followAll_snapshot hshown hkeyed hsnapshot]
  constructor
  · intro hall
    obtain ⟨shown, hstatus, hshows⟩ := hall [] trivial
    obtain rfl := Except.ok.inj hstatus
    simpa using hshows
  · intro hsnap later hnew
    refine ⟨_, rfl, ?_⟩
    dsimp only
    rw [followAll_append]
    exact shows_followAll hsnap hnew

/-- A torrent is paused in between. -/
theorem shows_handleStatus_paused : ∃ shown,
    handleStatus none [⟨"a", "b", .pending⟩]
      ([.sessionStateChanged "a" "" .paused] ++ [.torrentRemoved "a"]) = .ok shown ∧
    Shows shown (((IpcState.default.applyAll [.torrentAdded "a" "b" .pending]).applyAll
      [.sessionStateChanged "a" "" .paused]).applyAll [.torrentRemoved "a"]) :=
  (@shows_handleStatus_iff [.torrentAdded "a" "b" .pending] [.sessionStateChanged "a" "" .paused]
    [.sessionStateChanged "a" "" .paused] [⟨"a", "b", .pending⟩]
    (by decide +kernel) (by decide +kernel)).mpr
    (fun k => by
      simp only [IpcState.get_applyAll, effects_singleton, IpcState.get_default]
      by_cases hk : "a" = k <;> simp [Event.touches, Event.effect, hk])
    [.torrentRemoved "a"] ⟨by simp, trivial⟩

end Bqti.Ipc.Client
