import Mathlib.Data.Finmap
import Mathlib.Tactic.Common

/-!
# The torrents known to the clients

The daemon keeps a table of its torrents for the clients and changes it by events, which it
also sends to them. A hash map is a finite map without an order, so that what it replicates
is a multiset of events, and every order of them is a list over that multiset.
-/

namespace Bqti.Ipc

/-- What a torrent is doing. -/
inductive TorrentState
  | pending
  | paused
  | downloading (current totalPieces : UInt32) (downloadRate : UInt64)
  | verifying (verified total : UInt32)
  | seeding (uploadRate : UInt64) (peers : UInt32)
  deriving DecidableEq, Repr

/-- A torrent as the clients see it. -/
structure Torrent where
  infoHash : String
  name : String
  state : TorrentState
  deriving DecidableEq, Repr

/-- The events that the daemon sends. -/
inductive Event
  | exposeTorrent (infoHash magnet : String)
  | sessionStateChanged (infoHash name : String) (state : TorrentState)
  | downloadComplted (infoHash resourcePath : String)
  | torrentAdded (infoHash name : String) (state : TorrentState)
  | torrentRemoved (infoHash : String)
  | error (infoHash message : String)
  deriving DecidableEq, Repr

/-- The table of torrents. -/
structure IpcState where
  activeTorrents : Finmap fun _ : String => Torrent
  deriving DecidableEq

namespace IpcState

/-- The table of a daemon that has just started. -/
def default : IpcState := ⟨∅⟩

/-- One event for each torrent, in the order of a hash map. -/
def replicate (self : IpcState) : Multiset Event :=
  self.activeTorrents.entries.map fun entry =>
    .sessionStateChanged entry.2.infoHash entry.2.name entry.2.state

/-- Take over an event, and give it back to be sent. -/
def apply (self : IpcState) (event : Event) : IpcState × Option Event :=
  match event with
  | .sessionStateChanged infoHash name state =>
      match self.activeTorrents.lookup infoHash with
      | some torrent =>
          (⟨self.activeTorrents.insert infoHash { torrent with name := name, state := state }⟩,
            some event)
      | none => (self, some event)
  | .torrentAdded infoHash name state =>
      (⟨self.activeTorrents.insert infoHash ⟨infoHash, name, state⟩⟩, some event)
  | .torrentRemoved infoHash => (⟨self.activeTorrents.erase infoHash⟩, some event)
  | .exposeTorrent _ _ | .downloadComplted _ _ | .error _ _ => (self, some event)

/-- The table after a list of events. -/
def applyAll (self : IpcState) (events : List Event) : IpcState :=
  events.foldl (fun state event => (state.apply event).1) self

@[simp] theorem applyAll_nil (s : IpcState) : s.applyAll [] = s := rfl

@[simp] theorem applyAll_cons (s : IpcState) (e : Event) (es : List Event) :
    s.applyAll (e :: es) = (s.apply e).1.applyAll es := rfl

/-- Every event is sent. -/
theorem apply_snd (s : IpcState) (e : Event) : (s.apply e).2 = some e := by
  unfold apply
  split
  · split <;> rfl
  all_goals rfl

/-- The entry of a torrent. -/
def get (self : IpcState) (infoHash : String) : Option Torrent :=
  self.activeTorrents.lookup infoHash

@[simp] theorem get_default (h : String) : default.get h = none := Finmap.lookup_empty h

/-- A table is what its entries are. -/
@[ext] theorem ext_get {s t : IpcState} (h : ∀ k, s.get k = t.get k) : s = t := by
  cases s
  cases t
  rw [IpcState.mk.injEq]
  exact Finmap.ext_lookup h

end IpcState

/-! ## What an event does to one entry -/

/-- The entry that an event may change. -/
def Event.touches : Event → Option String
  | .sessionStateChanged infoHash _ _ => some infoHash
  | .torrentAdded infoHash _ _ => some infoHash
  | .torrentRemoved infoHash => some infoHash
  | .exposeTorrent _ _ | .downloadComplted _ _ | .error _ _ => none

/-- A new state for a torrent that is there. -/
def Torrent.change (name : String) (state : TorrentState) (t : Torrent) : Torrent :=
  { t with name := name, state := state }

/-- What an event makes of the entry that it touches. -/
def Event.effect : Event → Option Torrent → Option Torrent
  | .sessionStateChanged _ name state, entry => entry.map (Torrent.change name state)
  | .torrentAdded infoHash name state, _ => some ⟨infoHash, name, state⟩
  | .torrentRemoved _, _ => none
  | .exposeTorrent _ _, entry | .downloadComplted _ _, entry | .error _ _, entry => entry

/-- An event changes the entry it touches and no other. -/
theorem IpcState.get_apply (s : IpcState) (e : Event) (k : String) :
    (s.apply e).1.get k = if e.touches = some k then e.effect (s.get k) else s.get k := by
  cases e with
  | sessionStateChanged h name state =>
    simp only [IpcState.apply, IpcState.get, Event.touches, Event.effect, Option.some.injEq]
    cases hentry : s.activeTorrents.lookup h with
    | none =>
      by_cases hk : h = k
      · subst hk
        simp [hentry]
      · simp [hk]
    | some t =>
      by_cases hk : h = k
      · subst hk
        simp [hentry, Torrent.change]
      · simp [hk, Finmap.lookup_insert_of_ne _ (Ne.symm hk)]
  | torrentAdded h name state =>
    simp only [IpcState.apply, IpcState.get, Event.touches, Event.effect, Option.some.injEq]
    by_cases hk : h = k
    · subst hk
      simp
    · simp [hk, Finmap.lookup_insert_of_ne _ (Ne.symm hk)]
  | torrentRemoved h =>
    simp only [IpcState.apply, IpcState.get, Event.touches, Event.effect, Option.some.injEq]
    by_cases hk : h = k
    · subst hk
      simp
    · simp [hk, Finmap.lookup_erase_ne (Ne.symm hk)]
  | exposeTorrent h magnet => simp [IpcState.apply, Event.touches]
  | downloadComplted h path => simp [IpcState.apply, Event.touches]
  | error h message => simp [IpcState.apply, Event.touches]

/-- Every torrent stands under its own hash. -/
theorem IpcState.infoHash_of_get {es : List Event} {k : String} {t : Torrent}
    (h : (default.applyAll es).get k = some t) : t.infoHash = k := by
  have hstep : ∀ (s : IpcState) (e : Event), (∀ k t, s.get k = some t → t.infoHash = k) →
      ∀ k t, (s.apply e).1.get k = some t → t.infoHash = k := by
    intro s e hs k t ht
    rw [IpcState.get_apply] at ht
    split at ht
    · rename_i hk
      cases e with
      | sessionStateChanged h name state =>
        obtain ⟨t', ht', rfl⟩ := Option.map_eq_some_iff.mp ht
        exact hs k t' ht'
      | torrentAdded h name state =>
        obtain rfl := Option.some.inj ht
        exact Option.some.inj hk
      | torrentRemoved h => exact absurd ht (by simp [Event.effect])
      | exposeTorrent h magnet => exact hs k t ht
      | downloadComplted h path => exact hs k t ht
      | error h message => exact hs k t ht
    · exact hs k t ht
  have hall : ∀ (es : List Event) (s : IpcState), (∀ k t, s.get k = some t → t.infoHash = k) →
      ∀ k t, (s.applyAll es).get k = some t → t.infoHash = k := by
    intro es
    induction es with
    | nil => exact fun s hs => hs
    | cons e es ih => exact fun s hs => ih _ (hstep s e hs)
  exact hall es default (fun k t ht => absurd ht (by simp)) k t h

/-! ## A snapshot does not restore the table -/

/-- Changes of torrents that are not there leave an empty table empty. -/
theorem IpcState.applyAll_changes {es : List Event}
    (h : ∀ e ∈ es, ∃ k name state, e = .sessionStateChanged k name state) :
    default.applyAll es = default := by
  induction es with
  | nil => rfl
  | cons e es ih =>
    rw [List.forall_mem_cons] at h
    obtain ⟨⟨k, name, state, rfl⟩, hes⟩ := h
    have hstep : (default.apply (.sessionStateChanged k name state)).1 = default := by
      ext1 k'
      rw [IpcState.get_apply, get_default, Event.effect, Option.map_none, ite_self]
    rw [applyAll_cons, hstep, ih hes]

/-- For every table: the events that it replicates, taken over in any order by an empty table,
give the table back precisely when it has no torrents. -/
theorem IpcState.applyAll_replicate_iff (s : IpcState) :
    (∀ events : List Event, (events : Multiset Event) = s.replicate →
      default.applyAll events = s) ↔ s.activeTorrents = ∅ := by
  constructor
  · intro h
    obtain ⟨events, hevents⟩ := Quot.exists_rep s.replicate
    have hempty : default.applyAll events = default := IpcState.applyAll_changes fun e he => by
      have hmem : e ∈ s.replicate := hevents ▸ Multiset.mem_coe.mpr he
      obtain ⟨entry, -, rfl⟩ := Multiset.mem_map.mp hmem
      exact ⟨_, _, _, rfl⟩
    rw [← h events hevents, hempty]
    rfl
  · intro hempty events hevents
    have hnone : s.replicate = 0 := by
      rw [IpcState.replicate, hempty]
      rfl
    rw [hnone, Multiset.coe_eq_zero] at hevents
    subst hevents
    cases s
    subst hempty
    rfl

/-- A torrent that was added is not in the table that its snapshot gives. -/
theorem IpcState.applyAll_replicate_added :
    ¬ ∀ events : List Event,
      (events : Multiset Event) = (default.applyAll [.torrentAdded "a" "b" .pending]).replicate →
        default.applyAll events = default.applyAll [.torrentAdded "a" "b" .pending] := by
  intro h
  have hentry := congrArg (·.get "a")
    (h [.sessionStateChanged "a" "b" .pending] (by decide +kernel))
  exact absurd hentry (by decide +kernel)

/-! ## Taking over events twice -/

/-- What a list of events makes of one entry. -/
def effects (k : String) (events : List Event) (entry : Option Torrent) : Option Torrent :=
  events.foldl (fun entry e => if e.touches = some k then e.effect entry else entry) entry

@[simp] theorem effects_nil (k : String) (entry : Option Torrent) :
    effects k [] entry = entry := rfl

/-- Events have their effects one after the other. -/
theorem effects_append (k : String) (es fs : List Event) (entry : Option Torrent) :
    effects k (es ++ fs) entry = effects k fs (effects k es entry) := List.foldl_append ..

/-- One event changes the entry that it touches. -/
theorem effects_singleton (k : String) (e : Event) (entry : Option Torrent) :
    effects k [e] entry = if e.touches = some k then e.effect entry else entry := rfl

/-- Events that touch other entries do nothing. -/
theorem effects_of_not_touches {k : String} {es : List Event}
    (h : ∀ e ∈ es, e.touches ≠ some k) (entry : Option Torrent) : effects k es entry = entry := by
  induction es with
  | nil => rfl
  | cons e es ih =>
    rw [List.forall_mem_cons] at h
    rw [← List.singleton_append, effects_append, effects_singleton, if_neg h.1, ih h.2]

/-- The entry of a key is what the events make of it. -/
theorem IpcState.get_applyAll (s : IpcState) (es : List Event) (k : String) :
    (s.applyAll es).get k = effects k es (s.get k) := by
  induction es generalizing s with
  | nil => rfl
  | cons e es ih =>
    rw [applyAll_cons, ih, IpcState.get_apply, ← List.singleton_append, effects_append,
      effects_singleton]

/-- A list of events leaves an entry as it is, sets it, or changes a torrent that is there. -/
theorem effects_cases (k : String) (es : List Event) :
    (∀ entry, effects k es entry = entry) ∨
    (∃ result, ∀ entry, effects k es entry = result) ∨
    ∃ name state, ∀ entry, effects k es entry = entry.map (Torrent.change name state) := by
  induction es using List.reverseRecOn with
  | nil => exact .inl fun _ => rfl
  | append_singleton es e ih =>
    simp only [effects_append, effects_singleton]
    by_cases htouch : e.touches = some k
    · simp only [htouch, if_true]
      cases e with
      | sessionStateChanged h name state =>
        simp only [Event.effect]
        rcases ih with hkeep | ⟨result, hset⟩ | ⟨name', state', hchange⟩
        · exact .inr (.inr ⟨name, state, fun entry => by rw [hkeep]⟩)
        · exact .inr (.inl ⟨_, fun entry => by rw [hset]⟩)
        · refine .inr (.inr ⟨name, state, fun entry => ?_⟩)
          rw [hchange, Option.map_map]
          rfl
      | torrentAdded h name state => exact .inr (.inl ⟨some ⟨h, name, state⟩, fun _ => rfl⟩)
      | torrentRemoved h => exact .inr (.inl ⟨none, fun _ => rfl⟩)
      | exposeTorrent h magnet => exact absurd htouch (by simp [Event.touches])
      | downloadComplted h path => exact absurd htouch (by simp [Event.touches])
      | error h message => exact absurd htouch (by simp [Event.touches])
    · simpa only [htouch, if_false] using ih

/-- Events that an entry has already taken over can be taken over once more. -/
theorem effects_idem (k : String) (es : List Event) (entry : Option Torrent) :
    effects k es (effects k es entry) = effects k es entry := by
  rcases effects_cases k es with hkeep | ⟨result, hset⟩ | ⟨name, state, hchange⟩
  · rw [hkeep]
  · rw [hset, hset]
  · rw [hchange, hchange, Option.map_map]
    rfl

end Bqti.Ipc
