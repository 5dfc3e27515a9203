import Bqti.Session.Removal.Step

/-!
# A session in the tables of the manager

Other sessions come and go while a session is removed. The session is listed under its own info
hash alone, and once it has been taken out of the two tables nothing brings it back.
-/

namespace Bqti.Session.Removal

open Bqti.Torrent
open Bqti.Session.Routing (SessionManager StandardMessage)

section Tables

variable {A : Type*} {w : Setting} {tables : SessionManager A} {phase : Phase}

/-- The tables hold numbers of sessions. A listed session stands in the table of torrents under
its own info hash alone, and one that was taken out stands in neither table. -/
structure Tabled (w : Setting) (tables : SessionManager A) (phase : Phase) : Prop where
  hashes : ∀ h k, tables.byHash h = some k → k < tables.sessions.length
  peers : ∀ a k, tables.byPeer a = some k → k < tables.sessions.length
  listed : ∀ me, phase = .listed me → ∀ h, tables.byHash h = some me ↔ h = w.hash
  gone : ∀ me, phase = .unlisted me ∨ phase = .removed me →
    me < tables.sessions.length ∧ (∀ h, tables.byHash h ≠ some me) ∧
      ∀ a, tables.byPeer a ≠ some me

/-- The table of torrents after a session was entered under the next number. -/
theorem byHash_insert {h g : InfoHash} {k : Nat} :
    (Routing.insert tables h).byHash g = some k ↔
      g = h ∧ tables.sessions.length = k ∨ g ≠ h ∧ tables.byHash g = some k := by
  simp only [Routing.insert, Function.update_apply]
  split
  case isTrue hg => simp [hg]
  case isFalse hg => simp [hg]

/-- An insertion adds one session. -/
theorem length_insert (tables : SessionManager A) (h : InfoHash) :
    (Routing.insert tables h).sessions.length = tables.sessions.length + 1 := by
  simp [Routing.insert]

/-- Numbers stay below the count of the sessions. -/
theorem Tabled.lt_insert (ht : Tabled w tables phase) {h g : InfoHash} {k : Nat}
    (hk : (Routing.insert tables h).byHash g = some k) : k < tables.sessions.length + 1 := by
  rcases byHash_insert.mp hk with ⟨_, he⟩ | ⟨_, hold⟩
  · omega
  · have hlt := ht.hashes g k hold
    omega

/-- A session of another torrent gets a number of its own. -/
theorem Tabled.insert (ht : Tabled w tables phase) {h : InfoHash} (hh : h ≠ w.hash) :
    Tabled w (Routing.insert tables h) phase where
  hashes g k hk := length_insert tables h ▸ ht.lt_insert hk
  peers a k hk := length_insert tables h ▸ Nat.lt_succ_of_lt (ht.peers a k hk)
  listed me hme g := by
    have hlt := ht.hashes w.hash me ((ht.listed me hme w.hash).mpr rfl)
    rw [byHash_insert]
    constructor
    · rintro (⟨_, he⟩ | ⟨_, hk⟩)
      · omega
      · exact (ht.listed me hme g).mp hk
    · rintro rfl
      exact Or.inr ⟨hh.symm, (ht.listed me hme w.hash).mpr rfl⟩
  gone me hme := by
    obtain ⟨hlt, hhash, hpeer⟩ := ht.gone me hme
    refine ⟨length_insert tables h ▸ Nat.lt_succ_of_lt hlt, fun g hk => ?_, hpeer⟩
    rcases byHash_insert.mp hk with ⟨_, he⟩ | ⟨_, hold⟩
    · omega
    · exact hhash g hold

/-- What a removal leaves in the tables was there before. -/
theorem remove_cases (tables : SessionManager A) (h : InfoHash) :
    Routing.remove tables h = tables ∧ tables.byHash h = none ∨
      ∃ k, tables.byHash h = some k ∧ Routing.remove tables h =
        { tables with
          byHash := Function.update tables.byHash h none
          byPeer := fun a => (tables.byPeer a).filter (· ≠ k) } := by
  unfold Routing.remove
  cases hk : tables.byHash h with
  | none => exact Or.inl ⟨rfl, rfl⟩
  | some k => exact Or.inr ⟨k, rfl, rfl⟩

/-- An entry of the table of torrents after a removal. -/
theorem byHash_remove {h g : InfoHash} {k : Nat}
    (hk : (Routing.remove tables h).byHash g = some k) : tables.byHash g = some k ∧ g ≠ h := by
  rcases remove_cases tables h with ⟨hsame, hnone⟩ | ⟨j, _, hremoved⟩
  · rw [hsame] at hk
    refine ⟨hk, ?_⟩
    rintro rfl
    rw [hnone] at hk
    contradiction
  · rw [hremoved] at hk
    by_cases hg : g = h
    · subst hg
      simp at hk
    · exact ⟨(Function.update_of_ne hg _ _).symm.trans hk, hg⟩

/-- An entry of the table of peers after a removal. -/
theorem byPeer_remove {h : InfoHash} {a : A} {k : Nat}
    (hk : (Routing.remove tables h).byPeer a = some k) :
    tables.byPeer a = some k ∧ tables.byHash h ≠ some k := by
  rcases remove_cases tables h with ⟨hsame, hnone⟩ | ⟨j, hj, hremoved⟩
  · rw [hsame] at hk
    exact ⟨hk, by simp [hnone]⟩
  · rw [hremoved] at hk
    obtain ⟨hbound, hne⟩ := Option.filter_eq_some_iff.mp hk
    refine ⟨hbound, ?_⟩
    rw [hj]
    intro he
    have he := Option.some.inj he
    simp [he] at hne

/-- A removal keeps the list of sessions. -/
theorem sessions_remove (tables : SessionManager A) (h : InfoHash) :
    (Routing.remove tables h).sessions = tables.sessions := by
  unfold Routing.remove
  split <;> rfl

/-- The removal of another torrent leaves the session where it is. -/
theorem Tabled.remove (ht : Tabled w tables phase) {h : InfoHash} (hh : h ≠ w.hash) :
    Tabled w (Routing.remove tables h) phase where
  hashes g k hk := sessions_remove tables h ▸ ht.hashes g k (byHash_remove hk).1
  peers a k hk := sessions_remove tables h ▸ ht.peers a k (byPeer_remove hk).1
  listed me hme g := by
    refine ⟨fun hk => (ht.listed me hme g).mp (byHash_remove hk).1, ?_⟩
    rintro rfl
    have hown := (ht.listed me hme w.hash).mpr rfl
    rcases remove_cases tables h with ⟨hsame, _⟩ | ⟨j, _, hremoved⟩
    · rw [hsame]
      exact hown
    · rw [hremoved]
      exact (Function.update_of_ne hh.symm _ _).trans hown
  gone me hme := by
    obtain ⟨hlt, hhash, hpeer⟩ := ht.gone me hme
    rw [sessions_remove]
    exact ⟨hlt, fun g hk => hhash g (byHash_remove hk).1, fun a hk => hpeer a (byPeer_remove hk).1⟩

/-- The first half of `remove` takes the session out of both tables. -/
theorem Tabled.unlist {me : Nat} (ht : Tabled w tables (.listed me)) :
    Tabled w (Routing.remove tables w.hash) (.unlisted me) where
  hashes g k hk := sessions_remove tables w.hash ▸ ht.hashes g k (byHash_remove hk).1
  peers a k hk := sessions_remove tables w.hash ▸ ht.peers a k (byPeer_remove hk).1
  listed me' hme := by simp at hme
  gone me' hme := by
    have he : me = me' := by simpa using hme
    subst he
    have hown := (ht.listed me rfl w.hash).mpr rfl
    rw [sessions_remove]
    refine ⟨ht.hashes w.hash me hown, fun g hk => ?_, fun a hk => (byPeer_remove hk).2 hown⟩
    obtain ⟨hg, hne⟩ := byHash_remove hk
    exact hne ((ht.listed me rfl g).mp hg)

/-- Entering the session gives it a new number. -/
theorem Tabled.register (ht : Tabled w tables .creating) :
    Tabled w (Routing.insert tables w.hash) (.listed tables.sessions.length) where
  hashes g k hk := length_insert tables w.hash ▸ ht.lt_insert hk
  peers a k hk := length_insert tables w.hash ▸ Nat.lt_succ_of_lt (ht.peers a k hk)
  listed me hme g := by
    have he : tables.sessions.length = me := by simpa using hme
    subst he
    rw [byHash_insert]
    constructor
    · rintro (⟨hg, _⟩ | ⟨_, hk⟩)
      · exact hg
      · exact absurd (ht.hashes g _ hk) (lt_irrefl _)
    · intro hg
      exact Or.inl ⟨hg, rfl⟩
  gone me hme := by simp at hme

/-- The second half of `remove` does not touch the tables. -/
theorem Tabled.purge {me : Nat} (ht : Tabled w tables (.unlisted me)) :
    Tabled w tables (.removed me) where
  hashes := ht.hashes
  peers := ht.peers
  listed me' hme := by simp at hme
  gone me' hme := by
    have he : me = me' := by simpa using hme
    subst he
    exact ht.gone me (Or.inl rfl)

/-- A handshake is bound to a session that the table of torrents has. -/
theorem Tabled.dispatch [DecidableEq A] (ht : Tabled w tables phase) (message : StandardMessage)
    (source : A) : Tabled w (Routing.dispatch tables message source).1 phase := by
  rcases Routing.dispatch_cases tables message source with hsame | ⟨h, k, hk, hbound⟩
  · rw [hsame]
    exact ht
  · rw [hbound]
    refine ⟨ht.hashes, fun a j hj => ?_, ht.listed, fun me hme => ?_⟩
    · by_cases ha : a = source
      · subst ha
        simp only [Function.update_self, Option.some.injEq] at hj
        exact hj ▸ ht.hashes h k hk
      · simp only [Function.update_of_ne ha] at hj
        exact ht.peers a j hj
    · obtain ⟨hlt, hhash, hpeer⟩ := ht.gone me hme
      refine ⟨hlt, hhash, fun a => ?_⟩
      by_cases ha : a = source
      · subst ha
        simp only [Function.update_self]
        exact fun he => hhash h (hk.trans he)
      · simp only [Function.update_of_ne ha]
        exact hpeer a

end Tables

end Bqti.Session.Removal
