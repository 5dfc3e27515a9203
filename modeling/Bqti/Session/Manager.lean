import Bqti.Session.Routing
import Bqti.Session.Cache
import Bqti.Torrent.Saved

/-!
# Creating sessions

Torrents reach the manager through `add`, which first looks whether there is a session, and
through `restore_cache`, which does not look. Both put them on a bounded queue; one worker takes
them off, creates their sessions and enters these in the table. All of these are tasks that
run concurrently, and a log that no step reads records what became of every torrent.
-/

namespace Bqti.Session.Manager

open Bqti.Core Bqti.Torrent
open Bqti.Session.Routing (SessionManager StandardMessage dispatch remove)
open Bqti.Session.Cache (CachingMode Sections loadFromCache)

/-- How a session starts. -/
inductive SessionMode
  | download (destinationDir : Path)
  | seed (sourceDir : Path)

/-- A torrent on the queue. -/
structure QueuedTorrent where
  mode : SessionMode
  torrent : TorrentFile

/-- A cached session is restored from the directory it was found in. -/
def QueuedTorrent.ofCache : CachingMode → QueuedTorrent
  | .download userSpace metafile => ⟨.download userSpace, metafile⟩
  | .seed userSpace metafile => ⟨.seed userSpace, metafile⟩

/-- The failures of `add`. -/
inductive SessionManagerError
  | sessionCorrupted
  | alreadyExists (infoHash : InfoHash)
  deriving DecidableEq

/-- The capacity of the queue. -/
def torrentQueueSize : Nat := 16

/-- Where a call of `add` stands. -/
inductive AddPc
  | checking
  | sending
  | finished (result : Except SessionManagerError Unit)

/-- Whether a call has returned. -/
def AddPc.isFinished : AddPc → Bool
  | .finished _ => true
  | .checking | .sending => false

/-- A call of `add`. -/
structure AddCall where
  item : QueuedTorrent
  pc : AddPc

/-- Where `restore_cache` stands. -/
inductive Restore
  | scanning
  | restoring (entries : List CachingMode)

/-- Whether everything found in the cache has been sent. -/
def Restore.isOver : Restore → Bool
  | .restoring [] => true
  | .restoring _ | .scanning => false

/-- Where the queue worker stands. A created session is entered in a step of its own. -/
inductive QueueWorker
  | idle
  | creating (item : QueuedTorrent)
  | inserting (session : Nat) (h : InfoHash)
  | stopped

/-- Whether the worker has returned, which closes the queue. -/
def QueueWorker.isStopped : QueueWorker → Bool
  | .stopped => true
  | .idle | .creating _ | .inserting _ _ => false

/-- What became of the torrents, newest first. -/
inductive Event
  | created (h : InfoHash)
  | registered (h : InfoHash) (replaced : Option Nat)
  | removed (h : InfoHash)
  deriving DecidableEq

/-- The manager with all its tasks. -/
structure Node (A : Type*) where
  tables : SessionManager A
  adds : List AddCall
  restore : Restore
  queue : List QueuedTorrent
  worker : QueueWorker
  cancelled : Bool
  log : List Event

/-- The steps of the manager and its tasks. -/
inductive Label (A : Type*)
  | add (item : QueuedTorrent)
  | advance (i : Nat)
  | scan (disk : Sections)
  | restore
  | receive
  | create (ok : Bool)
  | insert
  | cancel
  | dispatch (message : StandardMessage) (source : A)
  | remove (h : InfoHash)

/-- A manager as it is created. -/
def Node.new {A : Type*} : Node A where
  tables := ⟨[], fun _ => none, fun _ => none⟩
  adds := []
  restore := .scanning
  queue := []
  worker := .idle
  cancelled := false
  log := []

section Steps

variable {A : Type*} [DecidableEq A]

/-- Move a call of `add`. -/
def Node.setAdd (n : Node A) (i : Nat) (call : AddCall) (pc : AddPc) : Node A :=
  { n with adds := n.adds.set i { call with pc := pc } }

/-- One step of a call of `add`: the look into the table, then the send, which waits for room
and fails once the queue is closed. -/
def stepAdd (n : Node A) (i : Nat) (call : AddCall) : Option (Node A) :=
  match call.pc with
  | .checking =>
      let infoHash := call.item.torrent.infoHash
      if (n.tables.byHash infoHash).isSome then
        some (n.setAdd i call (.finished (.error (.alreadyExists infoHash))))
      else some (n.setAdd i call .sending)
  | .sending =>
      if n.worker.isStopped then
        some (n.setAdd i call (.finished (.error .sessionCorrupted)))
      else if n.queue.length < torrentQueueSize then
        some { n.setAdd i call (.finished (.ok ())) with queue := n.queue ++ [call.item] }
      else none
  | .finished _ => none

/-- Send the next cached session. -/
def stepRestore (n : Node A) : Option (Node A) :=
  match n.restore with
  | .restoring (entry :: entries) =>
      if n.worker.isStopped then some { n with restore := .restoring entries }
      else if n.queue.length < torrentQueueSize then
        some { n with restore := .restoring entries, queue := n.queue ++ [.ofCache entry] }
      else none
  | .restoring [] | .scanning => none

/-- The worker waits for a torrent; it returns when the manager is gone. -/
def stepReceive (n : Node A) : Option (Node A) :=
  match n.worker, n.queue with
  | .idle, item :: queue =>
      if n.cancelled then some { n with worker := .stopped, queue := [] }
      else some { n with worker := .creating item, queue := queue }
  | .idle, [] =>
      if n.cancelled && n.restore.isOver then some { n with worker := .stopped } else none
  | _, _ => none

/-- The worker has a new session in its hands. -/
def Node.create (n : Node A) (h : InfoHash) : Node A :=
  { n with
    tables := { n.tables with sessions := n.tables.sessions ++ [h] }
    worker := .inserting n.tables.sessions.length h
    log := .created h :: n.log }

/-- The end of `TorrentSession::new`. A session that could not be opened is dropped. -/
def stepCreate (n : Node A) (ok : Bool) : Option (Node A) :=
  match n.worker with
  | .creating item =>
      if ok then some (n.create item.torrent.infoHash) else some { n with worker := .idle }
  | _ => none

/-- Enter a session in the table, whatever stands there. -/
def Node.insert (n : Node A) (session : Nat) (h : InfoHash) : Node A :=
  { n with
    tables := { n.tables with byHash := Function.update n.tables.byHash h (some session) }
    worker := .idle
    log := .registered h (n.tables.byHash h) :: n.log }

/-- The worker enters the session it has created. -/
def stepInsert (n : Node A) : Option (Node A) :=
  match n.worker with
  | .inserting session h => some (n.insert session h)
  | _ => none

/-- What a removal adds to the log: nothing when there is no session. -/
def removeEvents (tables : SessionManager A) (h : InfoHash) : List Event :=
  match tables.byHash h with
  | none => []
  | some _ => [.removed h]

/-- One step. The manager is dropped only while no call on it is under way. -/
def step (codec : LoadCodec) (n : Node A) : Label A → Option (Node A)
  | .add item =>
      if n.cancelled then none else some { n with adds := n.adds ++ [⟨item, .checking⟩] }
  | .advance i =>
      match n.adds[i]? with
      | none => none
      | some call => stepAdd n i call
  | .scan disk =>
      match n.restore with
      | .scanning => some { n with restore := .restoring (loadFromCache codec disk) }
      | .restoring _ => none
  | .restore => stepRestore n
  | .receive => stepReceive n
  | .create ok => stepCreate n ok
  | .insert => stepInsert n
  | .cancel =>
      if n.adds.all fun call => call.pc.isFinished then some { n with cancelled := true } else none
  | .dispatch message source =>
      if n.cancelled then none
      else some { n with tables := (dispatch n.tables message source).1 }
  | .remove h =>
      if n.cancelled then none
      else some { n with
        tables := remove n.tables h
        log := removeEvents n.tables h ++ n.log }

end Steps

/-! ## One session for each torrent -/

/-- How many sessions were created for a torrent since it was last removed. -/
def live (h : InfoHash) : List Event → Nat
  | [] => 0
  | .created g :: events => if g = h then live h events + 1 else live h events
  | .registered _ _ :: events => live h events
  | .removed g :: events => if g = h then 0 else live h events

section Invariant

variable {A : Type*}

/-- No torrent has had two sessions without a removal in between, no entry of the table was
overwritten, and every peer is bound to the session that the table has for its torrent. -/
structure OneSession (n : Node A) : Prop where
  created : ∀ h, live h n.log ≤ 1
  registered : ∀ h replaced, .registered h replaced ∈ n.log → replaced = none
  peers : ∀ a k, n.tables.byPeer a = some k →
    ∃ h, n.tables.sessions[k]? = some h ∧ n.tables.byHash h = some k

/-- A session is only created while the table has none for its torrent. -/
def Fresh (n : Node A) : Label A → Prop
  | .create true =>
      match n.worker with
      | .creating item => n.tables.byHash item.torrent.infoHash = none
      | _ => True
  | _ => True

instance Fresh.decidable (n : Node A) : (a : Label A) → Decidable (Fresh n a)
  | .create true =>
      match h : n.worker with
      | .creating item =>
          decidable_of_iff (n.tables.byHash item.torrent.infoHash = none) (by simp [Fresh, h])
      | .idle | .inserting _ _ | .stopped => .isTrue (by simp [Fresh, h])
  | .create false | .add _ | .advance _ | .scan _ | .restore | .receive | .insert | .cancel
  | .dispatch _ _ | .remove _ => .isTrue trivial

end Invariant

/-! ## What a step can do -/

/-- The session that the worker has created and not yet entered. -/
def QueueWorker.inserted : QueueWorker → Option (Nat × InfoHash)
  | .inserting session h => some (session, h)
  | .idle | .creating _ | .stopped => none

section Moves

variable {A : Type*} [DecidableEq A] {codec : LoadCodec} {n n' : Node A} {a : Label A}

/-- What a step does to the table, the log and the session in the hands of the worker. -/
inductive Move (n : Node A) : Label A → Node A → Prop
  | other {a : Label A} {n' : Node A} (htables : n'.tables = n.tables) (hlog : n'.log = n.log)
      (hworker : n'.worker.inserted = n.worker.inserted) (hfresh : Fresh n a) : Move n a n'
  | create {item : QueuedTorrent} (hworker : n.worker = .creating item) :
      Move n (.create true) (n.create item.torrent.infoHash)
  | insert {session : Nat} {h : InfoHash} (hworker : n.worker = .inserting session h) :
      Move n .insert (n.insert session h)
  | dispatch (message : StandardMessage) (source : A) :
      Move n (.dispatch message source)
        { n with tables := (Routing.dispatch n.tables message source).1 }
  | remove (h : InfoHash) :
      Move n (.remove h)
        { n with tables := Routing.remove n.tables h, log := removeEvents n.tables h ++ n.log }

/-- A call of `add` touches neither the table nor the worker. -/
theorem stepAdd_move {i : Nat} {call : AddCall} (h : stepAdd n i call = some n') :
    Move n (.advance i) n' := by
  unfold stepAdd at h
  split at h
  · dsimp only at h
    split at h
    · exact Option.some.inj h ▸ .other rfl rfl rfl trivial
    · exact Option.some.inj h ▸ .other rfl rfl rfl trivial
  · split at h
    · exact Option.some.inj h ▸ .other rfl rfl rfl trivial
    · split at h
      · exact Option.some.inj h ▸ .other rfl rfl rfl trivial
      · contradiction
  · contradiction

/-- Restoring a torrent is one of the moves. -/
theorem stepRestore_move (h : stepRestore n = some n') : Move n .restore n' := by
  unfold stepRestore at h
  split at h
  · split at h
    · exact Option.some.inj h ▸ .other rfl rfl rfl trivial
    · split at h
      · exact Option.some.inj h ▸ .other rfl rfl rfl trivial
      · contradiction
  all_goals contradiction

/-- Receiving starts from an idle worker, which has no session in its hands. -/
theorem stepReceive_move (h : stepReceive n = some n') : Move n .receive n' := by
  unfold stepReceive at h
  split at h
  case h_1 hworker _ =>
    have hnone : n.worker.inserted = none := by rw [hworker]; rfl
    split at h
    · exact Option.some.inj h ▸ .other rfl rfl hnone.symm trivial
    · exact Option.some.inj h ▸ .other rfl rfl hnone.symm trivial
  case h_2 hworker _ =>
    have hnone : n.worker.inserted = none := by rw [hworker]; rfl
    split at h
    · exact Option.some.inj h ▸ .other rfl rfl hnone.symm trivial
    · contradiction
  case h_3 => contradiction

/-- Creating a session is one of the moves. -/
theorem stepCreate_move {ok : Bool} (h : stepCreate n ok = some n') : Move n (.create ok) n' := by
  unfold stepCreate at h
  split at h
  case h_1 hworker =>
    have hnone : n.worker.inserted = none := by rw [hworker]; rfl
    cases ok with
    | true => exact Option.some.inj h ▸ .create hworker
    | false => exact Option.some.inj h ▸ .other rfl rfl hnone.symm trivial
  case h_2 => contradiction

/-- Every step is a move. -/
theorem step_move (h : step codec n a = some n') : Move n a n' := by
  cases a with
  | add item =>
    simp only [step, Option.ite_none_left_eq_some] at h
    exact Option.some.inj h.2 ▸ .other rfl rfl rfl trivial
  | advance i =>
    simp only [step] at h
    split at h
    · contradiction
    · exact stepAdd_move h
  | scan disk =>
    simp only [step] at h
    split at h
    · exact Option.some.inj h ▸ .other rfl rfl rfl trivial
    · contradiction
  | restore => exact stepRestore_move h
  | receive => exact stepReceive_move h
  | create ok => exact stepCreate_move h
  | insert =>
    simp only [step, stepInsert] at h
    split at h
    · exact Option.some.inj h ▸ .insert ‹_›
    · contradiction
  | cancel =>
    simp only [step, Option.ite_none_right_eq_some] at h
    exact Option.some.inj h.2 ▸ .other rfl rfl rfl trivial
  | dispatch message source =>
    simp only [step, Option.ite_none_left_eq_some] at h
    exact Option.some.inj h.2 ▸ .dispatch message source
  | remove g =>
    simp only [step, Option.ite_none_left_eq_some] at h
    exact Option.some.inj h.2 ▸ .remove g

end Moves

/-! ## The invariant -/

section Good

variable {A : Type*} {n n' : Node A}

/-- The sessions that the table and the worker hold for a torrent. -/
def Node.held (n : Node A) (h : InfoHash) : Nat :=
  (if (n.tables.byHash h).isSome then 1 else 0) +
    if n.worker.inserted.map Prod.snd = some h then 1 else 0

/-- The table holds every session under its own torrent, and the worker has a session in its
hands only for a torrent that the table does not have. -/
structure Good (n : Node A) : Prop where
  counted : ∀ h, live h n.log = n.held h
  registered : ∀ h replaced, .registered h replaced ∈ n.log → replaced = none
  peers : ∀ a k, n.tables.byPeer a = some k →
    ∃ h, n.tables.sessions[k]? = some h ∧ n.tables.byHash h = some k
  named : ∀ h k, n.tables.byHash h = some k → n.tables.sessions[k]? = some h
  inserted : ∀ k h, n.worker.inserted = some (k, h) →
    n.tables.byHash h = none ∧ n.tables.sessions[k]? = some h

/-- A new node is good. -/
theorem good_new : Good (Node.new : Node A) where
  counted h := by simp [Node.new, Node.held, live, QueueWorker.inserted]
  registered := by simp [Node.new]
  peers := by simp [Node.new]
  named := by simp [Node.new]
  inserted := by simp [Node.new, QueueWorker.inserted]

/-- The table and the worker together hold at most one session of a torrent. -/
theorem Good.held_le_one (hn : Good n) (h : InfoHash) : n.held h ≤ 1 := by
  unfold Node.held
  cases hw : n.worker.inserted with
  | none =>
    simp only [Option.map_none, reduceCtorEq, if_false]
    split <;> omega
  | some pair =>
    obtain ⟨k, g⟩ := pair
    by_cases hg : g = h
    · subst hg
      rw [(hn.inserted k g hw).1]
      simp
    · simp only [Option.map_some, Option.some.injEq, hg, if_false]
      split <;> omega

/-- A good node has one session for each torrent. -/
theorem Good.oneSession (hn : Good n) : OneSession n where
  created h := hn.counted h ▸ hn.held_le_one h
  registered := hn.registered
  peers := hn.peers

/-- Steps that leave the table, the log and the session of the worker alone. -/
theorem Good.of_same (hn : Good n) (htables : n'.tables = n.tables) (hlog : n'.log = n.log)
    (hworker : n'.worker.inserted = n.worker.inserted) : Good n' where
  counted h := by
    have hheld : n'.held h = n.held h := by rw [Node.held, Node.held, htables, hworker]
    rw [hlog, hheld]
    exact hn.counted h
  registered := hlog ▸ hn.registered
  peers := htables ▸ hn.peers
  named := htables ▸ hn.named
  inserted := by
    rw [htables, hworker]
    exact hn.inserted

/-- A session in the list keeps its number. -/
theorem getElem?_sessions_append {sessions more : List InfoHash} {k : Nat} {h : InfoHash}
    (hk : sessions[k]? = some h) : (sessions ++ more)[k]? = some h := by
  rw [List.getElem?_append_left (List.getElem?_eq_some_iff.mp hk).1]
  exact hk

/-- Creating a session keeps the invariant while the table has none for its torrent. -/
theorem Good.create {h : InfoHash} (hn : Good n) (hworker : n.worker.inserted = none)
    (hfree : n.tables.byHash h = none) : Good (n.create h) where
  counted g := by
    have hcount := hn.counted g
    rw [Node.held, hworker] at hcount
    simp only [Option.map_none, reduceCtorEq, if_false, Nat.add_zero] at hcount
    have hlog : live g (n.create h).log = if h = g then live g n.log + 1 else live g n.log := rfl
    have hheld : (n.create h).held g =
        (if (n.tables.byHash g).isSome then 1 else 0) + if some h = some g then 1 else 0 := rfl
    rw [hlog, hheld, hcount]
    by_cases hg : h = g
    · rw [if_pos hg, if_pos (congrArg some hg)]
    · rw [if_neg hg, if_neg fun he => hg (Option.some.inj he), Nat.add_zero]
  registered g replaced hg := by
    rcases List.mem_cons.mp hg with hhead | htail
    · contradiction
    · exact hn.registered g replaced htail
  peers a k hk := by
    obtain ⟨g, hs, hb⟩ := hn.peers a k hk
    exact ⟨g, getElem?_sessions_append hs, hb⟩
  named g k hk := getElem?_sessions_append (hn.named g k hk)
  inserted k g hk := by
    obtain ⟨rfl, rfl⟩ := Prod.mk.inj (Option.some.inj hk)
    exact ⟨hfree, List.getElem?_concat_length⟩

/-- Creating a session for a torrent of the table gives the torrent a second one. -/
theorem Good.free_of_create {h : InfoHash} (hn : Good n) (hworker : n.worker.inserted = none)
    (hone : OneSession (n.create h)) : n.tables.byHash h = none := by
  have hle : live h n.log + 1 ≤ 1 := by
    have hcreated := hone.created h
    simpa only [Node.create, live, if_true] using hcreated
  rw [hn.counted, Node.held, hworker] at hle
  cases hb : n.tables.byHash h with
  | none => rfl
  | some k => simp [hb] at hle

/-- The worker enters its session where the table is free. -/
theorem Good.insert {session : Nat} {h : InfoHash} (hn : Good n)
    (hworker : n.worker.inserted = some (session, h)) : Good (n.insert session h) := by
  obtain ⟨hfree, hsession⟩ := hn.inserted session h hworker
  refine ⟨fun g => ?_, fun g replaced hg => ?_, fun a k hk => ?_, fun g k hk => ?_,
    fun k g hk => ?_⟩
  · have hcount := hn.counted g
    rw [Node.held, hworker] at hcount
    by_cases hg : g = h
    · subst hg
      simp [Node.insert, live, Node.held, QueueWorker.inserted, hcount, hfree]
    · have hne : ¬ h = g := fun he => hg he.symm
      simp [Node.insert, live, Node.held, QueueWorker.inserted, hcount, Function.update_of_ne hg,
        hne]
  · rcases List.mem_cons.mp hg with hhead | htail
    · obtain ⟨rfl, rfl⟩ := Event.registered.inj hhead
      exact hfree
    · exact hn.registered g replaced htail
  · obtain ⟨g, hs, hb⟩ := hn.peers a k hk
    have hne : g ≠ h := by
      rintro rfl
      rw [hfree] at hb
      contradiction
    exact ⟨g, hs, (Function.update_of_ne hne _ _).trans hb⟩
  · by_cases hg : g = h
    · subst hg
      simp only [Node.insert, Function.update_self, Option.some.injEq] at hk
      exact hk ▸ hsession
    · simp only [Node.insert, Function.update_of_ne hg] at hk
      exact hn.named g k hk
  · contradiction

/-- A removal clears the entry of its torrent and every peer that was bound to its session. -/
theorem Good.remove (hn : Good n) (h : InfoHash) :
    Good { n with tables := Routing.remove n.tables h,
                  log := removeEvents n.tables h ++ n.log } := by
  unfold Routing.remove removeEvents
  cases hk : n.tables.byHash h with
  | none => exact hn
  | some session =>
    refine ⟨fun g => ?_, fun g replaced hg => ?_, fun a k ha => ?_, fun g k hg => ?_,
      fun k g hg => ?_⟩
    · have hcount := hn.counted g
      by_cases hg : g = h
      · subst hg
        have hheld := hn.held_le_one g
        simp only [Node.held, hk, Option.isSome_some, if_true] at hheld
        have hfree : ¬ n.worker.inserted.map Prod.snd = some g := by
          intro he
          rw [if_pos he] at hheld
          omega
        simp [live, Node.held, hfree]
      · have hne : ¬ h = g := fun he => hg he.symm
        rw [Node.held] at hcount
        simp [live, Node.held, hcount, Function.update_of_ne hg, hne]
    · rcases List.mem_cons.mp hg with hhead | htail
      · contradiction
      · exact hn.registered g replaced htail
    · obtain ⟨hbound, hne⟩ := Option.filter_eq_some_iff.mp ha
      obtain ⟨g, hs, hb⟩ := hn.peers a k hbound
      refine ⟨g, hs, (Function.update_of_ne ?_ _ _).trans hb⟩
      rintro rfl
      have he : session = k := Option.some.inj (hk.symm.trans hb)
      simp [he] at hne
    · by_cases hg' : g = h
      · subst hg'
        simp at hg
      · simp only [Function.update_of_ne hg'] at hg
        exact hn.named g k hg
    · obtain ⟨hfree, hs⟩ := hn.inserted k g hg
      refine ⟨?_, hs⟩
      by_cases hg' : g = h
      · subst hg'
        exact Function.update_self _ _ _
      · exact (Function.update_of_ne hg' _ _).trans hfree

variable [DecidableEq A]

/-- Dispatching a message keeps a node good. -/
theorem Good.dispatch (hn : Good n) (message : StandardMessage) (source : A) :
    Good { n with tables := (Routing.dispatch n.tables message source).1 } := by
  rcases Routing.dispatch_cases n.tables message source with hsame | ⟨h, k, hk, hbound⟩
  · exact hn.of_same hsame rfl rfl
  · rw [hbound]
    refine ⟨hn.counted, hn.registered, fun a j hj => ?_, hn.named, hn.inserted⟩
    by_cases ha : a = source
    · subst ha
      simp only [Function.update_self, Option.some.injEq] at hj
      subst hj
      exact ⟨h, hn.named h k hk, hk⟩
    · simp only [Function.update_of_ne ha] at hj
      exact hn.peers a j hj

/-- From a good state, a step leaves one session for each torrent exactly when it meets the
condition. -/
theorem Move.good {a : Label A} (h : Move n a n') (hn : Good n) :
    (OneSession n' ↔ Fresh n a) ∧ (OneSession n' → Good n') := by
  have hkeep : Good n' → Fresh n a → (OneSession n' ↔ Fresh n a) ∧ (OneSession n' → Good n') :=
    fun hgood hfresh => ⟨iff_of_true hgood.oneSession hfresh, fun _ => hgood⟩
  cases h with
  | other htables hlog hworker hfresh => exact hkeep (hn.of_same htables hlog hworker) hfresh
  | create hworker =>
    rename_i item
    have hnone : n.worker.inserted = none := by rw [hworker]; rfl
    have hfresh : Fresh n (.create true) ↔ n.tables.byHash item.torrent.infoHash = none := by
      simp only [Fresh, hworker]
    rw [hfresh]
    refine ⟨⟨hn.free_of_create hnone, fun hfree => (hn.create hnone hfree).oneSession⟩, ?_⟩
    exact fun hone => hn.create hnone (hn.free_of_create hnone hone)
  | insert hworker => exact hkeep (hn.insert (by rw [hworker]; rfl)) trivial
  | dispatch message source => exact hkeep (hn.dispatch message source) trivial
  | remove h => exact hkeep (hn.remove h) trivial

end Good

/-- In every state of a run there is one session for each torrent, exactly when the worker never
finishes a session while the table has one for the same torrent. -/
theorem one_session_iff {A : Type*} [DecidableEq A] (codec : LoadCodec) (labels : List (Label A))
    (last : Node A) (h : run (step codec) .new labels = some last) :
    (∀ pre post n, labels = pre ++ post → run (step codec) .new pre = some n → OneSession n) ↔
      Along (step codec) Fresh .new labels :=
  forall_reached_iff_along (fun _ hn => hn.oneSession)
    (fun _ _ _ hn hstep => (step_move hstep).good hn) good_new h

/-! ## A torrent that is added twice -/

/-- A version 1 torrent of one file. -/
def sampleItem : QueuedTorrent :=
  ⟨.download ['/', 'h'], .v1 ⟨⟨Routing.sampleHash 1, "a", .ofByteSize 16384⟩, false,
    List.replicate 20 0, .singleFile ⟨3, ["a"], none⟩⟩⟩

/-- The codec of the node. -/
def sampleCodec : LoadCodec := bencodeCodec noTree Sha1.digest Sha256.digest

/-- The handshake of a peer for the torrent. -/
def sampleGreeting : Label Nat := .dispatch (.handshake (Routing.sampleHash 1).asRef []) 7

/-- A torrent is added, created and registered; a later call of `add` is refused. -/
def addedAgainRun : List (Label Nat) :=
  [.add sampleItem, .advance 0, .advance 0, .receive, .create true, .insert, sampleGreeting,
    .add sampleItem, .advance 1]

/-- A torrent that is added twice has one session. -/
theorem one_session_iff_addedAgain :
    ∃ last, run (step sampleCodec) .new addedAgainRun = some last ∧
      last.tables.sessions.length = 1 ∧ OneSession last := by
  have hrun : (run (step sampleCodec) .new addedAgainRun).map (·.tables.sessions.length) =
      some 1 := by decide +kernel
  obtain ⟨last, hlast, hlength⟩ := Option.map_eq_some_iff.mp hrun
  exact ⟨last, hlast, hlength, (one_session_iff sampleCodec addedAgainRun last hlast).mpr
    (by decide +kernel) addedAgainRun [] last (List.append_nil _).symm hlast⟩

/-- Two calls of `add` look into the table before the worker has entered the first session. -/
def addedTwiceRun : List (Label Nat) :=
  [.add sampleItem, .add sampleItem, .advance 0, .advance 1, .advance 0, .advance 1, .receive,
    .create true, .insert, sampleGreeting, .receive, .create true, .insert]

/-- The torrent gets two sessions, the second replaces the first in the table, and a peer stays
bound to the first. -/
theorem added_twice_two_sessions :
    ∃ last, run (step sampleCodec) .new addedTwiceRun = some last ∧
      live (Routing.sampleHash 1) last.log = 2 ∧
      .registered (Routing.sampleHash 1) (some 0) ∈ last.log ∧
      last.tables.byPeer 7 = some 0 ∧ last.tables.byHash (Routing.sampleHash 1) = some 1 ∧
      ¬ OneSession last := by
  have hrun : ((run (step sampleCodec) .new addedTwiceRun).any fun n =>
      decide (live (Routing.sampleHash 1) n.log = 2 ∧
        .registered (Routing.sampleHash 1) (some 0) ∈ n.log ∧
        n.tables.byPeer 7 = some 0 ∧ n.tables.byHash (Routing.sampleHash 1) = some 1)) = true := by
    decide +kernel
  obtain ⟨last, hlast, hlive, hreplaced, hpeer, hhash⟩ := exists_of_any hrun
  refine ⟨last, hlast, hlive, hreplaced, hpeer, hhash, fun hone => ?_⟩
  have hle := hone.created (Routing.sampleHash 1)
  omega

end Bqti.Session.Manager
