import Mathlib.Data.List.Basic
import Mathlib.Data.List.Induction
import Mathlib.Data.List.Pairwise
import Mathlib.Tactic.Common

/-!
# Counting in fixed windows

A counter for one client: a call opens a window, in which a limited number of calls pass; the
first call after the end of the window opens the next one. Two windows never meet an interval that
is no longer than a window in more than two parts, so at most twice the limit passes in it.
-/

namespace Bqti.Core.FixedWindow

/-- How many calls have passed, and since when they are counted. -/
abbrev State := Option (Nat × Nat)

variable {limit width a b now n s : Nat} {e : State} {times pre post : List Nat}

/-- The window that a call falls into. -/
def window (width : Nat) (e : State) (now : Nat) : Nat × Nat :=
  (e.filter fun w => decide (now - w.2 ≤ width)).getD (0, now)

/-- One call, and whether it passes. -/
def tick (limit width : Nat) (e : State) (now : Nat) : State × Bool :=
  let w := window width e now
  if w.1 < limit then (some (w.1 + 1, w.2), true) else (some w, false)

/-- The calls with their answers. -/
def decisions (limit width : Nat) : State → List Nat → List (Nat × Bool)
  | _, [] => []
  | e, t :: times =>
      (t, (tick limit width e t).2) :: decisions limit width (tick limit width e t).1 times

/-- The counter after calls. -/
def after (limit width : Nat) (e : State) (times : List Nat) : State :=
  times.foldl (fun e t => (tick limit width e t).1) e

/-- How many calls of an interval have passed. -/
def passed (a b : Nat) (ds : List (Nat × Bool)) : Nat :=
  ds.countP fun d => d.2 && decide (a ≤ d.1 ∧ d.1 ≤ b)

/-- A decision counts if it was let through in the interval. -/
theorem passed_cons (a b : Nat) (d : Nat × Bool) (ds : List (Nat × Bool)) :
    passed a b (d :: ds) = passed a b ds + if d.2 = true ∧ a ≤ d.1 ∧ d.1 ≤ b then 1 else 0 := by
  rw [passed, List.countP_cons]
  simp [passed]

/-- What passed in two runs is what passed in each of them. -/
theorem passed_append (a b : Nat) (ds ds' : List (Nat × Bool)) :
    passed a b (ds ++ ds') = passed a b ds + passed a b ds' := List.countP_append ..

@[simp] theorem decisions_append (limit width : Nat) (e : State) (pre post : List Nat) :
    decisions limit width e (pre ++ post) =
      decisions limit width e pre ++ decisions limit width (after limit width e pre) post := by
  induction pre generalizing e with
  | nil => rfl
  | cons t pre ih => exact congrArg _ (ih _)

@[simp] theorem after_concat (limit width : Nat) (e : State) (pre : List Nat) (t : Nat) :
    after limit width e (pre ++ [t]) = (tick limit width (after limit width e pre) t).1 :=
  List.foldl_concat ..

/-- There is one decision for each time. -/
theorem map_fst_decisions (limit width : Nat) (e : State) (times : List Nat) :
    (decisions limit width e times).map Prod.fst = times := by
  induction times generalizing e with
  | nil => rfl
  | cons t times ih => exact congrArg _ (ih _)

/-- Nothing passes in an interval before the first call. -/
theorem passed_eq_zero (h : ∀ t ∈ times, b < t) :
    passed a b (decisions limit width e times) = 0 := by
  refine List.countP_eq_zero.mpr fun d hd => ?_
  have hmem : d.1 ∈ times := by
    rw [← map_fst_decisions limit width e times]
    exact List.mem_map_of_mem hd
  have hlt := h d.1 hmem
  simp only [Bool.and_eq_true, decide_eq_true_eq, not_and]
  omega

/-! ## One call -/

/-- A call falls into the window that is open. -/
theorem window_of_le (h : now - s ≤ width) : window width (some (n, s)) now = (n, s) := by
  rw [window, Option.filter_some, if_pos (decide_eq_true h)]
  rfl

/-- A call after the end of the window opens a new one. -/
theorem window_of_lt (h : ∀ w ∈ e, width < now - w.2) : window width e now = (0, now) := by
  cases e with
  | none => rfl
  | some w =>
    have hlt := h w rfl
    rw [window, Option.filter_some, if_neg (by simpa using Nat.lt_sub_iff_add_lt.mp hlt)]
    rfl

/-- A window goes on, or a new one starts at the time. -/
theorem window_eq_or (width : Nat) (e : State) (now : Nat) :
    (∃ n s, e = some (n, s) ∧ now - s ≤ width ∧ window width e now = (n, s)) ∨
      (∀ w ∈ e, width < now - w.2) ∧ window width e now = (0, now) := by
  cases e with
  | none => exact Or.inr ⟨fun _ h => (by cases h), rfl⟩
  | some w =>
    by_cases h : now - w.2 ≤ width
    · exact Or.inl ⟨w.1, w.2, rfl, h, window_of_le h⟩
    · have hlt : ∀ w' ∈ some w, width < now - w'.2 := fun w' hw' => by
        obtain rfl := Option.some.inj hw'
        omega
      exact Or.inr ⟨hlt, window_of_lt hlt⟩

/-- A call depends on its window only. -/
theorem tick_congr {e' : State} (h : window width e now = window width e' now) :
    tick limit width e now = tick limit width e' now := by
  simp only [tick, h]

/-- No window counts more than the limit. -/
def Valid (limit : Nat) (e : State) : Prop := ∀ w ∈ e, w.1 ≤ limit

/-- A tick keeps the count of a window below the limit. -/
theorem Valid.tick (h : Valid limit e) (now : Nat) : Valid limit (tick limit width e now).1 := by
  have hle : (window width e now).1 ≤ limit := by
    rcases window_eq_or width e now with ⟨n, s, rfl, -, hw⟩ | ⟨-, hw⟩
    · rw [hw]
      exact h (n, s) rfl
    · rw [hw]
      exact Nat.zero_le _
  intro w hw
  simp only [FixedWindow.tick] at hw
  split at hw
  · rename_i hlt
    obtain rfl := Option.some.inj hw
    exact hlt
  · obtain rfl := Option.some.inj hw
    exact hle

/-! ## How much passes -/

/-- Until the end of the open window there passes what the limit leaves. -/
theorem passed_in_window (hsorted : times.Pairwise (· ≤ ·)) (hn : n ≤ limit)
    (hb : b ≤ s + width) :
    passed a b (decisions limit width (some (n, s)) times) + n ≤ limit := by
  induction times generalizing n with
  | nil => exact (Nat.zero_add n).symm ▸ hn
  | cons t times ih =>
    obtain ⟨hle, hsorted⟩ := List.pairwise_cons.mp hsorted
    by_cases hlast : t ≤ s + width
    · have hw := window_of_le (n := n) (show t - s ≤ width by omega)
      rw [decisions, passed_cons]
      simp only [tick, hw]
      split
      · rename_i hlt
        have hrest := ih hsorted (n := n + 1) hlt
        simp only
        split <;> omega
      · have hrest := ih hsorted hn
        simpa using hrest
    · have hzero : passed a b (decisions limit width (some (n, s)) (t :: times)) = 0 := by
        refine passed_eq_zero fun x hx => ?_
        rcases List.mem_cons.mp hx with rfl | hx
        · omega
        · have := hle x hx
          omega
      omega

/-- A call that opens a window is counted in it. -/
theorem decisions_of_opened (h : ∀ w ∈ e, width < now - w.2) :
    decisions limit width e (now :: times) =
      decisions limit width (some (0, now)) (now :: times) := by
  have hopen : window width e now = window width (some (0, now)) now :=
    (window_of_lt h).trans (window_of_le (by omega)).symm
  rw [decisions, decisions, tick_congr hopen]

/-- Until the end of the window after the open one there passes at most the limit more. -/
theorem passed_in_two_windows (hsorted : times.Pairwise (· ≤ ·)) (hn : n ≤ limit)
    (hb : b ≤ s + 2 * width) :
    passed a b (decisions limit width (some (n, s)) times) + n ≤ 2 * limit := by
  induction times generalizing n with
  | nil =>
    have hzero : passed a b (decisions limit width (some (n, s)) []) = 0 := rfl
    omega
  | cons t times ih =>
    obtain ⟨hle, hrest⟩ := List.pairwise_cons.mp hsorted
    by_cases hlast : t ≤ s + width
    · have hw := window_of_le (n := n) (show t - s ≤ width by omega)
      rw [decisions, passed_cons]
      simp only [tick, hw]
      split
      · rename_i hlt
        have hcount := ih hrest (n := n + 1) hlt
        simp only
        split <;> omega
      · have hcount := ih hrest hn
        simpa using hcount
    · rw [decisions_of_opened (by rintro w ⟨⟩; omega)]
      have hend : b ≤ t + width := by omega
      have hcount := passed_in_window (a := a) hsorted (Nat.zero_le limit) hend
      omega

/-- In an interval no longer than a window at most twice the limit passes. -/
theorem passed_le (hsorted : times.Pairwise (· ≤ ·)) (hvalid : Valid limit e)
    (hb : b ≤ a + width) : passed a b (decisions limit width e times) ≤ 2 * limit := by
  induction times generalizing e with
  | nil => exact Nat.zero_le _
  | cons t times ih =>
    obtain ⟨hle, hrest⟩ := List.pairwise_cons.mp hsorted
    by_cases hbefore : t < a
    · rw [decisions, passed_cons, if_neg (by simp only; omega)]
      exact ih hrest (hvalid.tick t)
    · rcases window_eq_or width e t with ⟨n, s, rfl, hopen, -⟩ | ⟨hopen, -⟩
      · have hn : n ≤ limit := hvalid (n, s) rfl
        have hend : b ≤ s + 2 * width := by omega
        have hcount := passed_in_two_windows (a := a) hsorted hn hend
        omega
      · rw [decisions_of_opened hopen]
        have hend : b ≤ t + width := by omega
        have hcount := passed_in_window (a := a) hsorted (Nat.zero_le limit) hend
        omega

/-! ## What the window remembers -/

/-- A window was opened by one of the calls, none of them is behind its end, and it counts what
has passed in it. -/
structure Tracks (limit width : Nat) (times : List Nat) (ds : List (Nat × Bool))
    (w : Nat × Nat) : Prop where
  opened : w.2 ∈ times
  reach : ∀ t ∈ times, t ≤ w.2 + width
  count : passed w.2 (w.2 + width) ds = w.1
  bound : w.1 ≤ limit

/-- The window that a call falls into, before the call is counted in it. -/
theorem tracks_window {t : Nat} (hle : ∀ x ∈ times, x ≤ t)
    (hempty : after limit width none times = none → times = [])
    (hbefore : ∀ w ∈ after limit width none times,
      Tracks limit width times (decisions limit width none times) w) :
    Tracks limit width (times ++ [t]) (decisions limit width none times)
      (window width (after limit width none times) t) := by
  rcases window_eq_or width (after limit width none times) t with
    ⟨n, s, hafter, hopen, hw⟩ | ⟨hopen, hw⟩
  · have htracks := hbefore (n, s) hafter
    rw [hw]
    refine ⟨List.mem_append_left _ htracks.opened, fun x hx => ?_, htracks.count, htracks.bound⟩
    rcases List.mem_append.mp hx with hx | hx
    · exact htracks.reach x hx
    · rw [List.mem_singleton.mp hx]
      exact Nat.sub_le_iff_le_add'.mp hopen
  · rw [hw]
    refine ⟨List.mem_append_right _ (List.mem_singleton_self t), fun x hx => ?_, ?_,
      Nat.zero_le _⟩
    · rcases List.mem_append.mp hx with hx | hx
      · exact Nat.le_trans (hle x hx) (Nat.le_add_right _ _)
      · rw [List.mem_singleton.mp hx]
        exact Nat.le_add_right _ _
    · -- What came before lies behind the end of the window before.
      refine List.countP_eq_zero.mpr fun d hd => ?_
      have hmem : d.1 ∈ times := by
        rw [← map_fst_decisions limit width none times]
        exact List.mem_map_of_mem hd
      have hlt : d.1 < t := by
        cases hafter : after limit width none times with
        | none =>
          rw [hempty hafter] at hmem
          cases hmem
        | some w =>
          have hend := (hbefore w hafter).reach d.1 hmem
          have hgap := hopen w hafter
          omega
      simp only [Bool.and_eq_true, decide_eq_true_eq, not_and]
      omega

/-- After a request there is a window. -/
theorem after_ne_none {t : Nat} : after limit width e (times ++ [t]) ≠ none := by
  rw [after_concat, tick]
  split <;> exact Option.some_ne_none _

/-- The window tracks the decisions since it started. -/
theorem tracks_after (hsorted : times.Pairwise (· ≤ ·)) :
    ∀ w ∈ after limit width none times,
      Tracks limit width times (decisions limit width none times) w := by
  induction times using List.reverseRecOn with
  | nil => exact fun w hw => by cases hw
  | append_singleton times t ih =>
    obtain ⟨hsorted, -, hle⟩ := List.pairwise_append.mp hsorted
    have hle : ∀ x ∈ times, x ≤ t := fun x hx => hle x hx t (List.mem_singleton_self t)
    have hempty : after limit width none times = none → times = [] := by
      intro hnone
      rcases List.eq_nil_or_concat times with rfl | ⟨front, x, rfl⟩
      · rfl
      · rw [List.concat_eq_append] at hnone
        exact absurd hnone after_ne_none
    have hwindow := tracks_window hle hempty (ih hsorted)
    have hstart : (window width (after limit width none times) t).2 ≤ t := by
      rcases List.mem_append.mp hwindow.opened with hmem | hmem
      · exact hle _ hmem
      · exact Nat.le_of_eq (List.mem_singleton.mp hmem)
    have hend := hwindow.reach t (List.mem_append_right _ (List.mem_singleton_self t))
    have hcount := hwindow.count
    intro w hw
    rw [after_concat] at hw
    simp only [tick] at hw
    have hdecisions : decisions limit width none (times ++ [t]) =
        decisions limit width none times ++
          [(t, (tick limit width (after limit width none times) t).2)] := decisions_append ..
    rw [hdecisions]
    split at hw
    · rename_i hlt
      obtain rfl := Option.some.inj hw
      refine ⟨hwindow.opened, hwindow.reach, ?_, hlt⟩
      rw [passed_append, hcount, passed_cons, if_pos]
      · rfl
      · simp only [tick, if_pos hlt]
        exact ⟨trivial, hstart, hend⟩
    · rename_i hfull
      obtain rfl := Option.some.inj hw
      refine ⟨hwindow.opened, hwindow.reach, ?_, hwindow.bound⟩
      rw [passed_append, hcount, passed_cons, if_neg]
      · rfl
      · simp [tick, if_neg hfull]

/-- From the first call of a window to its end there passes at most the limit. -/
theorem passed_from_opening {w : Nat × Nat} (hsorted : (pre ++ post).Pairwise (· ≤ ·))
    (hw : after limit width none pre = some w) :
    passed w.2 (w.2 + width) (decisions limit width none (pre ++ post)) ≤ limit := by
  obtain ⟨hpre, hpost, -⟩ := List.pairwise_append.mp hsorted
  have htracks := tracks_after hpre w hw
  obtain ⟨n, s⟩ := w
  have hrest := passed_in_window (a := s) hpost htracks.bound (Nat.le_refl (s + width))
  rw [decisions_append, passed_append, htracks.count, hw, Nat.add_comm]
  exact hrest

/-- A call after a pause longer than a window passes. -/
theorem tick_of_pause (hlimit : 0 < limit) (hsorted : pre.Pairwise (· ≤ ·))
    (hpause : ∀ t ∈ pre, t + width < now) :
    (tick limit width (after limit width none pre) now).2 = true := by
  have hopened : window width (after limit width none pre) now = (0, now) := by
    refine window_of_lt fun w hw => ?_
    have hlast := hpause w.2 (tracks_after hsorted w hw).opened
    omega
  simp only [tick, hopened, if_pos hlimit]

end Bqti.Core.FixedWindow
