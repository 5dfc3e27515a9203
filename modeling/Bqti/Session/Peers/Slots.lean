import Bqti.Session.Peers.Step

/-!
# Slots of a pipeline

A piece becomes pending when it is requested. Only the handler that marks the piece in the
session takes it back from the pending ones, and a choke takes back all of them. A request that
ends in any other way keeps its slot, unless the piece is no longer pending or was requested a
second time.
-/

namespace Bqti.Session.Peers

open Bqti.Core Bqti.Dht Bqti.Torrent
open Bqti.Session.Routing (StandardMessage SessionManager)

variable {D P S A : Type*}

/-- All requests in flight. -/
def System.inFlight (s : System D A) : List (Nat × UInt32) := s.tasks.flatMap fun t => t.pc.flights

/-- The piece is pending in this pipeline. -/
def TorrentSession.isPending (s : TorrentSession D A) (request : Nat × UInt32) : Bool :=
  (s.pipelines[request.1]?).any fun p => decide (request.2 ∈ p.pending)

section Slots

variable [DecidableEq A]

/-- The requests that end in a step without giving back their slot, and those of the same task
that go on: a failed or badly signed answer, a pipeline that was replaced, a piece that the
session has already, and a panic. -/
def Pc.ends (host : Host D P S) (s : TorrentSession D A) (a : A) :
    Pc A → Choice → List (Nat × UInt32) × List (Nat × UInt32)
  | .waiting batch, .answer j payload =>
      match batch.flights[j]? with
      | some (pipe, index) =>
          match makeRequest host.crypto index batch.seeder payload with
          | none => ([(pipe, index)], batch.flights.eraseIdx j)
          | some _ => ([], [])
      | none => ([], [])
  | .pieceLookup pipe index batch, .go =>
      if s.getPipeline a = some pipe then ([], []) else ([(pipe, index)], batch.flights)
  | .pieceAdd pipe index batch, .go =>
      match s.addPiece index with
      | none => ((pipe, index) :: batch.flights, [])
      | some (false, _) => ([(pipe, index)], batch.flights)
      | some (true, _) => ([], [])
  | .haveSend _ _ none [] batch, .go => (batch.flights, [])
  | _, _ => ([], [])

/-- A request ends without giving back its slot only if its piece is not pending or was
requested from the same peer a second time. -/
def releasesSlots (host : Host D P S) (s : System D A) : Label A → Bool
  | .task k choice =>
      match s.tasks[k]? with
      | none => true
      | some t =>
          let (ended, kept) := t.pc.ends host s.session t.source choice
          ended.all fun request =>
            !s.session.isPending request || decide (request ∈ kept) ||
              (s.tasks.eraseIdx k).any fun u => decide (request ∈ u.pc.flights)
  | _ => true

variable {host : Host D P S} {s s' : System D A} {l : Label A}

/-! ## One step of a task -/

section Task

variable {u u' : TorrentSession D A} {a : A} {pc pc' : Pc A} {choice : Choice} {i : Nat}
  {p' : Pipeline D A} {x : UInt32}

/-- The requests that go on were in flight. -/
theorem ends_kept {request : Nat × UInt32} (h : request ∈ (pc.ends host u a choice).2) :
    request ∈ pc.flights := by
  unfold Pc.ends at h
  split at h
  · split at h
    · split at h
      · exact List.mem_of_mem_eraseIdx h
      · contradiction
    · contradiction
  · split at h
    · contradiction
    · exact List.mem_cons_of_mem _ h
  · split at h
    · contradiction
    · exact List.mem_cons_of_mem _ h
    · contradiction
  · contradiction
  · contradiction

/-- The requests that go on are in flight afterwards. -/
theorem Act.kept (h : Act host u a pc choice u' pc') {request : Nat × UInt32}
    (hkept : request ∈ (pc.ends host u a choice).2) : request ∈ pc'.flights := by
  cases h with
  | read h | touched _ _ h =>
    rw [h.flights]
    exact ends_kept hkept
  | rejected hj hpayload => simpa [Pc.ends, Pc.flights, hj, hpayload] using hkept
  | answered hj =>
    simp only [Pc.ends, hj] at hkept
    split at hkept
    · exact List.mem_cons_of_mem _ hkept
    · contradiction
  | orphaned h => simpa [Pc.ends, Pc.flights, h] using hkept
  | adopted h =>
    simp only [Pc.ends] at hkept
    split at hkept
    · contradiction
    · exact List.mem_cons_of_mem _ hkept
  | repeated h =>
    obtain ⟨_, h⟩ := h
    simpa [Pc.ends, Pc.flights, h] using hkept
  | panicked h | added h =>
    simp only [Pc.ends, h] at hkept
    contradiction
  | removed h => rcases h with rfl | rfl <;> contradiction
  | haveSent =>
    have hmem := ends_kept hkept
    exact hmem
  | haveUnlocked =>
    rename_i complete batch
    cases complete <;> contradiction
  | _ => contradiction

omit [DecidableEq A] in
/-- A request is pending if its pipeline says so. -/
theorem isPending_iff {request : Nat × UInt32} :
    u.isPending request = true ↔
      ∃ p, u.pipelines[request.1]? = some p ∧ request.2 ∈ p.pending := by
  simp [TorrentSession.isPending, Option.any_eq_true]

/-- A request whose piece stays pending is in flight afterwards or ends without giving back its
slot. -/
theorem Act.flights (h : Act host u a pc choice u' pc') {request : Nat × UInt32}
    (hflight : request ∈ pc.flights) (hpending : u'.isPending request = true) :
    request ∈ pc'.flights ∨ request ∈ (pc.ends host u a choice).1 := by
  have hrest : ∀ {flights : List (Nat × UInt32)} {j : Nat} {first : Nat × UInt32},
      flights[j]? = some first → request ∈ flights → request = first ∨
        request ∈ flights.eraseIdx j := by
    intro flights j first hj hmem
    obtain ⟨m, hm⟩ := List.getElem?_of_mem hmem
    by_cases hmj : m = j
    · subst hmj
      exact Or.inl (Option.some.inj (hm.symm.trans hj))
    · exact Or.inr (List.mem_eraseIdx_iff_getElem?.mpr ⟨m, hmj, hm⟩)
  cases h with
  | read h | touched _ _ h =>
    rw [h.flights]
    exact Or.inl hflight
  | filled hp => exact Or.inl (List.mem_append_left _ hflight)
  | rejected hj hpayload =>
    rcases hrest hj hflight with rfl | hmem
    · refine Or.inr ?_
      simp [Pc.ends, hj, hpayload]
    · exact Or.inl hmem
  | answered hj =>
    rcases hrest hj hflight with rfl | hmem
    · exact Or.inl List.mem_cons_self
    · exact Or.inl (List.mem_cons_of_mem _ hmem)
  | orphaned h =>
    rcases List.mem_cons.mp hflight with rfl | hmem
    · refine Or.inr ?_
      simp [Pc.ends, h]
    · exact Or.inl hmem
  | adopted h =>
    rename_i pipe pipe' index batch
    rcases List.mem_cons.mp hflight with rfl | hmem
    · by_cases he : pipe' = pipe
      · subst he
        exact Or.inl List.mem_cons_self
      · refine Or.inr ?_
        simp [Pc.ends, h, he]
    · exact Or.inl (List.mem_cons_of_mem _ hmem)
  | panicked h =>
    refine Or.inr ?_
    simpa [Pc.ends, Pc.flights, h] using hflight
  | repeated h =>
    obtain ⟨_, h⟩ := h
    rcases List.mem_cons.mp hflight with rfl | hmem
    · refine Or.inr ?_
      simp [Pc.ends, h]
    · exact Or.inl hmem
  | added h => exact Or.inl hflight
  | cleared hp =>
    rcases List.mem_cons.mp hflight with rfl | hmem
    · obtain ⟨q, hq, hmem⟩ := isPending_iff.mp hpending
      rcases of_getElem?_set hq with ⟨_, rfl⟩ | ⟨hne, _⟩
      · exact absurd hmem (Finset.notMem_erase _ _)
      · exact absurd rfl hne
    · exact Or.inl hmem
  | haveLocked | haveSent => exact Or.inl hflight
  | haveUnlocked =>
    rename_i complete batch
    cases complete with
    | none => exact Or.inr hflight
    | some b => cases b <;> exact Or.inl hflight
  | removed h => rcases h with rfl | rfl <;> contradiction
  | _ => contradiction

/-- A piece that is pending after a step was pending before or was just requested. -/
theorem Act.pending (h : Act host u a pc choice u' pc') (hpending : u'.isPending (i, x) = true) :
    u.isPending (i, x) = true ∨ (i, x) ∈ pc'.flights := by
  -- a pipeline is replaced by one with no more pending pieces
  have hset : ∀ {k : Nat} {q q' : Pipeline D A}, u.pipelines[k]? = some q →
      (u.setPipeline k q').isPending (i, x) = true → q'.pending ⊆ q.pending →
      u.isPending (i, x) = true := by
    intro k q q' hk hpending hsub
    obtain ⟨p, hi, hx⟩ := isPending_iff.mp hpending
    rcases of_getElem?_set hi with ⟨rfl, rfl⟩ | ⟨_, hsame⟩
    · exact isPending_iff.mpr ⟨q, hk, hsub hx⟩
    · exact isPending_iff.mpr ⟨p, hsame, hx⟩
  cases h with
  | touched hp _ _ hq => exact Or.inl (hset hp hpending (by rw [hq.2.2.2]))
  | opened =>
    obtain ⟨p, hi, hx⟩ := isPending_iff.mp hpending
    rcases of_getElem?_concat hi with hsame | ⟨_, rfl⟩
    · exact Or.inl (isPending_iff.mpr ⟨p, hsame, hx⟩)
    · simp [Pipeline.new] at hx
  | evaluated hp | uninterested hp | unchoked hp | choked hp =>
    exact Or.inl (hset hp hpending (Finset.Subset.refl _))
  | emptied hp => exact Or.inl (hset hp hpending (Finset.empty_subset _))
  | cleared hp => exact Or.inl (hset hp hpending (Finset.erase_subset _ _))
  | filled hp =>
    obtain ⟨p, hi, hx⟩ := isPending_iff.mp hpending
    rcases of_getElem?_set hi with ⟨rfl, rfl⟩ | ⟨_, hsame⟩
    · rcases mem_fillRequests hx with hold | hnew
      · exact Or.inl (isPending_iff.mpr ⟨_, hp, hold⟩)
      · exact Or.inr (List.mem_append_right _ (List.mem_map_of_mem hnew))
    · exact Or.inl (isPending_iff.mpr ⟨p, hsame, hx⟩)
  | _ => exact Or.inl hpending

end Task

/-! ## Runs -/

/-- Every pending piece has a request in flight. -/
def Accounted (s : System D A) : Prop :=
  ∀ request, s.session.isPending request = true → request ∈ s.inFlight

omit [DecidableEq A] in
/-- A request is in flight if some task has it. -/
theorem mem_inFlight {request : Nat × UInt32} :
    request ∈ s.inFlight ↔ ∃ t ∈ s.tasks, request ∈ t.pc.flights := List.mem_flatMap

/-- A step that releases its slots keeps the pending pieces accounted for. -/
theorem Move.accounted (h : Move host s l s') (hs : Accounted s)
    (hl : releasesSlots host s l = true) : Accounted s' := by
  intro request hpending
  cases h with
  | spawn h =>
    obtain ⟨t, ht, hmem⟩ := mem_inFlight.mp (hs request hpending)
    exact mem_inFlight.mpr ⟨t, List.mem_append_left _ ht, hmem⟩
  | disconnect addr => exact hs request hpending
  | manage => exact hs request hpending
  | task hk hact =>
    rename_i k choice t u pc
    have hmoved : request ∈ pc.flights → request ∈ (s.moveTo k t u pc).inFlight :=
      fun hmem => mem_inFlight.mpr ⟨{ t with pc := pc }, mem_set_new hk, hmem⟩
    rcases hact.pending hpending with hold | hnew
    · obtain ⟨v, hv, hmem⟩ := mem_inFlight.mp (hs request hold)
      rcases eq_or_mem_set (y := { t with pc := pc }) hk hv with rfl | hother
      · rcases hact.flights hmem hpending with hflight | hended
        · exact hmoved hflight
        · simp only [releasesSlots, hk, List.all_eq_true, Bool.or_eq_true, Bool.not_eq_true',
            decide_eq_true_eq, List.any_eq_true] at hl
          rcases hl request hended with (hno | hkept) | ⟨w, hw, hflight⟩
          · rw [hold] at hno
            contradiction
          · exact hmoved (hact.kept hkept)
          · exact mem_inFlight.mpr ⟨w, mem_set_of_mem_eraseIdx hw, hflight⟩
      · exact mem_inFlight.mpr ⟨v, hother, hmem⟩
    · exact hmoved hnew

/-- In a run in which every request that ends without giving back its slot is no longer pending
or was made a second time, a pipeline without a request in flight has all of its slots. -/
theorem slots_are_released (host : Host D P S) (manager : SessionManager A) (mode : ActiveMode)
    (labels : List (Label A)) (s : System D A)
    (hcond : Along (step host) (fun s l => releasesSlots host s l = true)
      (.new host manager mode) labels)
    (h : run (step host) (.new host manager mode) labels = some s) (i : Nat) (p : Pipeline D A)
    (hi : s.session.pipelines[i]? = some p) (hidle : ∀ request ∈ s.inFlight, request.1 ≠ i) :
    p.pending = ∅ ∧ p.availableSlots = maxPipeline := by
  have hnew : Accounted (.new host manager mode : System D A) := by
    simp [Accounted, System.new, TorrentSession.isPending]
  have hinv : Accounted s :=
    run_invariant_along (fun _ _ _ hs hl ha => (step_move ha).accounted hs hl) hnew hcond h
  have hempty : p.pending = ∅ := by
    apply Finset.eq_empty_of_forall_notMem
    intro x hx
    exact hidle (i, x) (hinv (i, x) (isPending_iff.mpr ⟨p, hi, hx⟩)) rfl
  exact ⟨hempty, by rw [Pipeline.availableSlots, hempty, Finset.card_empty, Nat.sub_zero]⟩

end Slots

/-- The peer unchokes us, and its only piece is requested. -/
def sampleRequested : List (Label Nat) :=
  sampleGreeting ++ .receive 7 .unchoke :: sampleTask 2 7

/-- The signed piece. -/
def samplePayload : Bytes := 0x61 :: ([2, 0, 0, 0, 0, 0x61] ++ List.replicate 58 0)

/-- The piece arrives and is processed. -/
def sampleReceived : List (Label Nat) :=
  sampleRequested ++ .task 2 (.answer 0 (some samplePayload)) :: sampleTask 2 5 ++
    .task 2 (.target 0 true) :: sampleTask 2 2

/-- In the sample run all slots are free again. -/
theorem slots_are_released_sample :
    ∃ s p, run (step sampleHost) (sampleSystem .downloading) sampleReceived = some s ∧
      s.session.pipelines[0]? = some p ∧ s.session.bitfield.bytes = [0x80] ∧
      p.pending = ∅ ∧ p.availableSlots = maxPipeline := by
  have hrun : ((run (step sampleHost) (sampleSystem .downloading) sampleReceived).any fun s =>
      s.session.pipelines[0]?.isSome ∧ s.session.bitfield.bytes = [0x80] ∧
        ∀ request ∈ s.inFlight, request.1 ≠ 0) = true := by
    decide +kernel
  obtain ⟨s, hs, hsome, hbits, hidle⟩ := exists_of_any hrun
  obtain ⟨p, hp⟩ := Option.isSome_iff_exists.mp hsome
  exact ⟨s, p, hs, hp, hbits, slots_are_released sampleHost sampleManager .downloading
    sampleReceived s (by decide +kernel) hs 0 p hp hidle⟩

/-- The request fails, and its handler ends. -/
def sampleRequestFailed : List (Label Nat) :=
  sampleRequested ++ [.task 2 (.answer 0 none), .task 2 .go]

/-- Nothing is in flight and the piece is still pending. -/
theorem failed_request_keeps_slot :
    ∃ s, run (step sampleHost) (sampleSystem .downloading) sampleRequestFailed = some s ∧
      s.inFlight = [] ∧ s.session.peer 7 = some (.active 0) ∧
      s.session.pipelines.map Pipeline.pending = [{0}] := by
  have hrun : ((run (step sampleHost) (sampleSystem .downloading) sampleRequestFailed).any fun s =>
      s.inFlight = [] ∧ s.session.peer 7 = some (.active 0) ∧
        s.session.pipelines.map Pipeline.pending = [{0}]) = true := by
    decide +kernel
  obtain ⟨s, hs, hprops⟩ := exists_of_any hrun
  exact ⟨s, hs, hprops⟩

end Bqti.Session.Peers
