import Bqti.Core.Pool
import Bqti.Pex.View

/-!
# Several torrents and one peer

A peer has one record for all torrents. A change of one torrent is told against what was recorded
last, whichever torrent that was, so that addresses of another torrent are dropped and addresses
the peer was told of already are added again. This does not happen precisely as long as the record
agrees, on what is about to be told, with what the peer was told of that torrent.
-/

namespace Bqti.Pex

open Bqti.Core Bqti.Dht

/-- What a peer was told of a torrent and has not been told to drop. -/
def toldOf (log : List Sent) (h : InfoHash) : Finset SocketAddr :=
  viewOf ((log.map Sent.message).filter (·.infoHash = h))

/-- An address was added for a torrent. -/
def Listed (log : List Sent) (h : InfoHash) (addr : SocketAddr) : Prop :=
  ∃ e ∈ log, e.message.infoHash = h ∧ addr ∈ e.message.added

/-- A message adds members of the swarm that the peer was not told of, and drops what was added
before, both for its own torrent. -/
def Sent.Fits (log : List Sent) (e : Sent) : Prop :=
  (∀ addr ∈ e.message.added, addr ∈ e.members ∧ addr ∉ toldOf log e.message.infoHash) ∧
    ∀ addr ∈ e.message.dropped, Listed log e.message.infoHash addr

/-- Every message fits what was told before it. -/
def Separated (log : List Sent) : Prop := ∀ k e, log[k]? = some e → Sent.Fits (log.take k) e

/-- A log stays separated if its new message fits the others. -/
theorem separated_concat {log : List Sent} {e : Sent} :
    Separated (log ++ [e]) ↔ Separated log ∧ e.Fits log := by
  constructor
  · intro hall
    refine ⟨fun k e' hk => ?_, ?_⟩
    · have hlt := (List.getElem?_eq_some_iff.mp hk).1
      have hfits := hall k e' (List.getElem?_append_left hlt ▸ hk)
      rwa [List.take_append_of_le_length hlt.le] at hfits
    · have hfits := hall log.length e List.getElem?_concat_length
      rwa [List.take_left] at hfits
  · rintro ⟨hall, hfits⟩ k e' hk
    rcases of_getElem?_concat hk with hk | ⟨rfl, rfl⟩
    · have hlt := (List.getElem?_eq_some_iff.mp hk).1
      rw [List.take_append_of_le_length hlt.le]
      exact hall k e' hk
    · rw [List.take_left]
      exact hfits

namespace Gossip

variable {g g' : Gossip} {h : InfoHash} {p : SocketAddr} {l : Label}

/-- The record agrees with what the peer was told of the torrent: a whole swarm is told only if
the peer was told of none of it, and a change only if the record has the members the peer was told
of and, unless the new members use up the budget, nothing else that was not added before. -/
def Aligned (p : SocketAddr) (g : Gossip) : Call → Prop
  | .message h peer => peer = p → Disjoint (toldOf (g.sent p) h) (g.router.swarm h)
  | .delta h peer => peer = p → ∀ current, g.router.swarms h = some current →
      (∀ addr ∈ current, addr ∈ toldOf (g.sent p) h → addr ∈ g.router.lastSent p) ∧
        ((current \ g.router.lastSent p).card < maxPexDelta →
          ∀ addr ∈ g.router.lastSent p, addr ∉ current → Listed (g.sent p) h addr)
  | _ => True

/-- After a message. -/
theorem separated_produce_iff {members : Finset SocketAddr} {router : PexRouter} {m : PexMessage}
    (hseparated : Separated (g.sent p)) :
    Separated ((g.produce p members (router, some m)).sent p) ↔
      Sent.Fits (g.sent p) ⟨m, members⟩ := by
  rw [produce_sent_self, separated_concat]
  exact and_iff_right hseparated

/-- A call that tells a whole swarm. -/
theorem separated_message_iff (hseparated : Separated (g.sent p)) (h : InfoHash) :
    (∀ a g', a.call = .message h p → step g a = some g' → Separated (g'.sent p)) ↔
      Aligned p g (.message h p) := by
  constructor
  · intro hall _
    rw [Finset.disjoint_left]
    intro addr htold hmember
    obtain ⟨listed, hlisted⟩ := exists_lists_cons hmember
    have hmembers : g.router.swarm h ≠ ∅ := Finset.ne_empty_of_mem hmember
    have hfits := (separated_produce_iff hseparated).mp
      (hall _ _ rfl (step_message hmembers hlisted))
    exact (hfits.1 addr List.mem_cons_self).2 htold
  · rintro haligned ⟨_, listed, recorded⟩ g' rfl hstep
    have hconcerns : Concerns p (.message h p) := rfl
    cases effect_of_concerns hconcerns hstep with
    | untold empty => exact hseparated
    | told members lists =>
      refine (separated_produce_iff hseparated).mpr ⟨fun addr haddr => ?_, ?_⟩
      · have hmember := lists.mem_iff.mp (List.mem_of_mem_take haddr)
        exact ⟨hmember, Finset.disjoint_right.mp (haligned rfl) hmember⟩
      · intro addr haddr
        cases haddr

/-- A call that tells a change. -/
theorem separated_delta_iff (hseparated : Separated (g.sent p)) (h : InfoHash) :
    (∀ a g', a.call = .delta h p → step g a = some g' → Separated (g'.sent p)) ↔
      Aligned p g (.delta h p) := by
  constructor
  · intro hall _ current hswarm
    have hfits : ∀ {listed recorded : List SocketAddr}, current ≠ g.router.lastSent p →
        Lists listed current → Lists recorded (g.router.lastSent p) → _ :=
      fun hdiffers hlisted hrecorded => (separated_produce_iff hseparated).mp
        (hall _ _ rfl (step_delta hswarm hdiffers hlisted hrecorded))
    refine ⟨fun addr hmember htold => ?_, fun hroom addr hrecord hleft => ?_⟩
    · by_contra hnew
      -- The address may be the first of the swarm, so that it is added.
      obtain ⟨listed, hlisted⟩ := exists_lists_cons hmember
      obtain ⟨recorded, hrecorded⟩ := exists_lists (g.router.lastSent p)
      have hdiffers : current ≠ g.router.lastSent p := fun he => hnew (he ▸ hmember)
      refine ((hfits hdiffers hlisted hrecorded).1 addr ?_).2 htold
      rw [List.filter_cons_of_pos (by simpa using hnew)]
      exact List.mem_cons_self
    · -- The address may be the first of the record, so that it is dropped.
      obtain ⟨listed, hlisted⟩ := exists_lists current
      obtain ⟨recorded, hrecorded⟩ := exists_lists_cons hrecord
      have hdiffers : current ≠ g.router.lastSent p := fun he => hleft (he ▸ hrecord)
      refine (hfits hdiffers hlisted hrecorded).2 addr ?_
      have hlength := (hlisted.filter_notMem (g.router.lastSent p)).length_eq
      rw [List.filter_cons_of_pos (by simpa using hleft)]
      exact PexMessage.mem_cut_dropped_cons (hlength.trans_lt hroom) ..
  · rintro haligned ⟨_, listed, recorded⟩ g' rfl hstep
    have hconcerns : Concerns p (.delta h p) := rfl
    cases effect_of_concerns hconcerns hstep with
    | absent absent => exact hseparated
    | unchanged swarm same => exact hseparated
    | @changed _ _ _ current swarm differs lists records =>
      obtain ⟨hadded, hdropped⟩ := haligned rfl current swarm
      refine (separated_produce_iff hseparated).mpr ⟨fun addr haddr => ?_, fun addr haddr => ?_⟩
      · obtain ⟨hmember, hnew⟩ := List.mem_filter.mp (List.mem_of_mem_take haddr)
        have hcurrent := lists.mem_iff.mp hmember
        exact ⟨hcurrent, fun htold => of_decide_eq_true hnew (hadded addr hcurrent htold)⟩
      · obtain ⟨hroom, hgone⟩ := PexMessage.mem_cut_dropped haddr
        obtain ⟨hrecord, hleft⟩ := List.mem_filter.mp hgone
        rw [(lists.filter_notMem (g.router.lastSent p)).length_eq] at hroom
        exact hdropped hroom addr (records.mem_iff.mp hrecord) (of_decide_eq_true hleft)

/-- A call that does not concern the peer is aligned. -/
theorem aligned_of_not_concerns {c : Call} (hother : ¬ Concerns p c) : Aligned p g c := by
  cases c with
  | announce h addr => trivial
  | disconnect h addr => trivial
  | message h q => exact fun he => absurd he hother
  | delta h q => exact fun he => absurd he hother

/-- One call, in whatever order the sets are walked through. -/
theorem separated_step_iff (hseparated : Separated (g.sent p)) (c : Call) :
    (∀ a g', a.call = c → step g a = some g' → Separated (g'.sent p)) ↔ Aligned p g c :=
  forall_steps_iff (fun _ hsame => hsame.sent ▸ hseparated)
    (fun _ hother => aligned_of_not_concerns hother) (fun _ _ hsent => hsent ▸ hseparated)
    (fun _ => trivial) (separated_message_iff hseparated) (separated_delta_iff hseparated) c

/-- For every sequence of calls about any torrents: in every state that it can reach, every message
to a peer adds only members of its own swarm that the peer was not told of, and drops only what
was added before for the same torrent, precisely when the record agrees at every call with what
the peer was told of the torrent. -/
theorem separated_iff_aligned (p : SocketAddr) (calls : List Call) :
    (∀ labels g, labels.map Label.call <+: calls → run step start labels = some g →
      Separated (g.sent p)) ↔
    ∀ labels c g, labels.map Label.call ++ [c] <+: calls → run step start labels = some g →
      Aligned p g c := by
  refine forall_runs_iff (fun _ _ _ (hinv : True) _ => hinv)
    (fun _ c _ hseparated => separated_step_iff hseparated c) trivial ?_ calls
  intro k e hk
  cases hk

end Gossip

/-- Another torrent. -/
def sampleOtherHash : InfoHash := ⟨Vector.replicate 32 1, []⟩

/-- A peer is told of one torrent, then of a change of another. -/
def sampleMixed : List Label := [
  ⟨.announce sampleHash (sampleMember 1), [], []⟩,
  ⟨.announce sampleOtherHash (sampleMember 2), [], []⟩,
  ⟨.message sampleHash samplePeer, [sampleMember 1], []⟩,
  ⟨.delta sampleOtherHash samplePeer, [sampleMember 2], [sampleMember 1]⟩]

/-- The change drops the member of the first torrent, which was never added for the second. -/
theorem not_separated_sampleMixed : ∃ g, run Gossip.step .start sampleMixed = some g ∧
    ¬ Separated (g.sent samplePeer) := by
  have hrun : ((run Gossip.step .start sampleMixed).any fun g =>
      decide (g.sent samplePeer =
        [⟨⟨sampleHash, [sampleMember 1], []⟩, {sampleMember 1}⟩,
          ⟨⟨sampleOtherHash, [sampleMember 2], [sampleMember 1]⟩, {sampleMember 2}⟩])) = true := by
    decide +kernel
  obtain ⟨g, hg, hsent⟩ := exists_of_any hrun
  refine ⟨g, hg, fun hseparated => ?_⟩
  rw [hsent] at hseparated
  obtain ⟨e, he, hhash, -⟩ := (hseparated 1 _ rfl).2 (sampleMember 1) (List.mem_singleton.mpr rfl)
  rw [List.mem_singleton.mp he] at hhash
  exact absurd hhash (by decide)

end Bqti.Pex
