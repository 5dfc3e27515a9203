import Bqti.Core.FixedWindow
import Bqti.Core.Search
import Bqti.Dht.Auth.Manager

/-!
# What the rate limiter lets pass

The limiter keeps a window for each key and drops, at every call of whatever key, the windows that
have ended. A window that was dropped counts like one that is still there and has ended, so each
key is counted on its own, in fixed windows.
-/

namespace Bqti.Dht.RateLimiter

open Bqti.Core

variable {D : Type*}

/-- A limiter that has seen nobody. -/
def withLimits (maxPerWindow : UInt32) (windowSeconds : UInt64) : RateLimiter D :=
  ⟨fun _ => none, maxPerWindow, windowSeconds⟩

example : (new : RateLimiter D) = withLimits 100 60 := rfl

/-- The words of a window as numbers. -/
def windowNat (w : Window) : Nat × Nat := (w.1.toNat, w.2.toNat)

/-- What the limiter has for a key, as numbers. -/
def stateOf (l : RateLimiter D) (key : Key D) : FixedWindow.State :=
  (l.requests key).map windowNat

/-- No window was opened later than now. -/
def Timely (l : RateLimiter D) (now : Nat) : Prop :=
  ∀ key w, l.requests key = some w → w.2.toNat ≤ now

/-- Times do not go down. -/
def Timed (calls : List (UInt64 × Key D)) : Prop :=
  (calls.map fun c => c.1.toNat).Pairwise (· ≤ ·)

section Calls

variable [DecidableEq D]

/-- Calls of keys at times, with the answers of the limiter. -/
def decided (l : RateLimiter D) : List (UInt64 × Key D) → List ((UInt64 × Key D) × Bool)
  | [] => []
  | c :: calls => (c, (l.check c.2 c.1).2) :: decided (l.check c.2 c.1).1 calls

/-- The limiter after calls. -/
def after (l : RateLimiter D) (calls : List (UInt64 × Key D)) : RateLimiter D :=
  calls.foldl (fun l c => (l.check c.2 c.1).1) l

/-- The calls of one key. -/
def callsOf (key : Key D) (calls : List (UInt64 × Key D)) : List (UInt64 × Key D) :=
  calls.filter fun c => c.2 = key

/-- The answers that one key gets. -/
def answersTo (key : Key D) (ds : List ((UInt64 × Key D) × Bool)) : List Bool :=
  (ds.filter fun d => d.1.2 = key).map Prod.snd

/-- How many calls of a key are accepted in an interval. -/
def accepted (key : Key D) (a b : Nat) (ds : List ((UInt64 × Key D) × Bool)) : Nat :=
  ds.countP fun d => d.2 && decide (d.1.2 = key ∧ a ≤ d.1.1.toNat ∧ d.1.1.toNat ≤ b)

/-- The times at which a key calls. -/
def timesOf (key : Key D) (calls : List (UInt64 × Key D)) : List Nat :=
  (callsOf key calls).map fun c => c.1.toNat

end Calls

variable {l : RateLimiter D} {key k : Key D} {now : UInt64} {e : FixedWindow.State}
  {calls pre post : List (UInt64 × Key D)}

/-- The time since the start of a window is compared as numbers are. -/
theorem sub_le_iff {w : Window} (h : w.2.toNat ≤ now.toNat) (width : UInt64) :
    now - w.2 ≤ width ↔ now.toNat - w.2.toNat ≤ width.toNat := by
  rw [UInt64.le_iff_toNat_le, UInt64.toNat_sub_of_le _ _ (UInt64.le_iff_toNat_le.mpr h)]

/-! ## One call -/

/-- The windows that have not ended. -/
def retained (l : RateLimiter D) (now : UInt64) (key : Key D) : Option Window :=
  (l.requests key).filter fun w => decide (now - w.2 ≤ l.windowSeconds)

/-- The window that a call is counted in. -/
def current (l : RateLimiter D) (key : Key D) (now : UInt64) : Window :=
  (l.retained now key).getD (0, now)

/-- The current window has not ended. -/
theorem current_open (l : RateLimiter D) (key : Key D) (now : UInt64) :
    now - (l.current key now).2 ≤ l.windowSeconds := by
  rw [current]
  cases h : l.retained now key with
  | none =>
    rw [Option.getD_none, UInt64.sub_self]
    exact UInt64.zero_le
  | some w => exact of_decide_eq_true (Option.filter_eq_some_iff.mp h).2

/-- The words of the current window are the numbers of the window that is counted in. -/
theorem window_stateOf (h : l.Timely now.toNat) (key : Key D) :
    FixedWindow.window l.windowSeconds.toNat (l.stateOf key) now.toNat =
      windowNat (l.current key now) := by
  rw [current, retained, stateOf]
  cases hentry : l.requests key with
  | none => rfl
  | some w =>
    have hiff := sub_le_iff (h key w hentry) l.windowSeconds
    by_cases hfresh : now - w.2 ≤ l.windowSeconds
    · rw [Option.filter_some, if_pos (decide_eq_true hfresh)]
      exact FixedWindow.window_of_le (hiff.mp hfresh)
    · rw [Option.filter_some, if_neg (by simpa using hfresh)]
      refine FixedWindow.window_of_lt fun w' hw' => ?_
      obtain rfl := Option.some.inj hw'
      exact Nat.lt_of_not_le fun hle => hfresh (hiff.mpr hle)

section Check

variable [DecidableEq D]

/-- The first branch of a call is never taken: the window that it tests has not ended. -/
theorem check_eq (l : RateLimiter D) (key : Key D) (now : UInt64) : l.check key now =
    if (l.current key now).1 ≥ l.maxPerWindow then
      ({ l with requests := Function.update (l.retained now) key (some (l.current key now)) },
        false)
    else
      let counted : Window := ((l.current key now).1 + 1, (l.current key now).2)
      ({ l with requests := Function.update (l.retained now) key (some counted) }, true) := by
  have hnot : ¬ now - (l.current key now).2 > l.windowSeconds :=
    UInt64.not_lt.mpr (l.current_open key now)
  exact if_neg hnot

@[simp] theorem check_maxPerWindow (l : RateLimiter D) (k : Key D) (now : UInt64) :
    (l.check k now).1.maxPerWindow = l.maxPerWindow := by
  rw [check_eq]
  split <;> rfl

@[simp] theorem check_windowSeconds (l : RateLimiter D) (k : Key D) (now : UInt64) :
    (l.check k now).1.windowSeconds = l.windowSeconds := by
  rw [check_eq]
  split <;> rfl

/-- A call of another key at most drops a window that has ended. -/
theorem check_requests_of_ne (hne : key ≠ k) :
    (l.check k now).1.requests key = l.retained now key := by
  rw [check_eq]
  split <;> simp [hne]

/-- After a call the window of its key is the one that it was counted in. -/
theorem check_requests_self (l : RateLimiter D) (key : Key D) (now : UInt64) : ∃ count,
    (l.check key now).1.requests key = some (count, (l.current key now).2) := by
  rw [check_eq]
  split
  · exact ⟨_, Function.update_self ..⟩
  · exact ⟨_, Function.update_self ..⟩

/-- Windows are opened at the time of a call. -/
theorem Timely.check (h : l.Timely now.toNat) (k : Key D) : (l.check k now).1.Timely now.toNat := by
  have hretained : ∀ key w, l.retained now key = some w → w.2.toNat ≤ now.toNat :=
    fun key w hw => h key w (Option.filter_eq_some_iff.mp hw).1
  intro key w hw
  by_cases hkey : key = k
  · subst hkey
    obtain ⟨count, hself⟩ := l.check_requests_self key now
    obtain rfl := Option.some.inj (hw.symm.trans hself)
    rw [current]
    cases hentry : l.retained now key with
    | none => exact Nat.le_refl _
    | some w => exact hretained key w hentry
  · rw [check_requests_of_ne hkey] at hw
    exact hretained key w hw

/-- A call is one of the fixed windows of its key. -/
theorem check_self (h : l.Timely now.toNat) (key : Key D) :
    ((l.check key now).1.stateOf key, (l.check key now).2) =
      FixedWindow.tick l.maxPerWindow.toNat l.windowSeconds.toNat (l.stateOf key) now.toNat := by
  rw [FixedWindow.tick, window_stateOf h, windowNat, check_eq]
  by_cases hfull : (l.current key now).1 ≥ l.maxPerWindow
  · have hfull' := Nat.not_lt.mpr (UInt32.le_iff_toNat_le.mp hfull)
    rw [if_pos hfull, if_neg hfull']
    simp [stateOf, windowNat]
  · have hroom := UInt32.not_le.mp hfull
    rw [if_neg hfull, if_pos (UInt32.lt_iff_toNat_lt.mp hroom)]
    simp [stateOf, windowNat, toNat_succ_of_lt hroom]

@[simp] theorem after_maxPerWindow (l : RateLimiter D) (calls : List (UInt64 × Key D)) :
    (l.after calls).maxPerWindow = l.maxPerWindow := by
  induction calls generalizing l with
  | nil => rfl
  | cons c calls ih => exact (ih _).trans (check_maxPerWindow ..)

@[simp] theorem after_windowSeconds (l : RateLimiter D) (calls : List (UInt64 × Key D)) :
    (l.after calls).windowSeconds = l.windowSeconds := by
  induction calls generalizing l with
  | nil => rfl
  | cons c calls ih => exact (ih _).trans (check_windowSeconds ..)

/-- What another key's call drops has ended. -/
theorem stateOf_check_of_ne (h : l.Timely now.toNat) (hne : key ≠ k) :
    (l.check k now).1.stateOf key = l.stateOf key ∨ (l.check k now).1.stateOf key = none ∧
      ∀ w ∈ l.stateOf key, l.windowSeconds.toNat < now.toNat - w.2 := by
  rw [stateOf, check_requests_of_ne hne, retained, stateOf]
  cases hentry : l.requests key with
  | none => exact Or.inl rfl
  | some w =>
    by_cases hfresh : now - w.2 ≤ l.windowSeconds
    · rw [Option.filter_some, if_pos (decide_eq_true hfresh)]
      exact Or.inl rfl
    · rw [Option.filter_some, if_neg (by simpa using hfresh)]
      refine Or.inr ⟨rfl, fun w' hw' => ?_⟩
      obtain rfl := Option.some.inj hw'
      exact Nat.lt_of_not_le (mt (sub_le_iff (h key w hentry) l.windowSeconds).mpr hfresh)

end Check

/-! ## Each key on its own -/

/-- The limiter counts a key like fixed windows do, up to a window that has ended. -/
structure Follows (l : RateLimiter D) (key : Key D) (now : Nat) (e : FixedWindow.State) : Prop where
  timely : l.Timely now
  same : l.stateOf key = e ∨
    l.stateOf key = none ∧ ∀ w ∈ e, l.windowSeconds.toNat < now - w.2

/-- A new limiter follows windows that have not started. -/
theorem follows_withLimits (maxPerWindow : UInt32) (windowSeconds : UInt64) (key : Key D) :
    Follows (withLimits maxPerWindow windowSeconds) key 0 none where
  timely := by
    intro key w h
    cases h
  same := Or.inl rfl

/-- A limiter follows windows at later times too. -/
theorem Follows.mono {m n : Nat} (h : Follows l key m e) (hle : m ≤ n) : Follows l key n e where
  timely k w hw := Nat.le_trans (h.timely k w hw) hle
  same := by
    refine h.same.imp_right fun hended => ⟨hended.1, fun w hw => ?_⟩
    have := hended.2 w hw
    omega

/-- A call falls into the same window. -/
theorem Follows.window (h : Follows l key now.toNat e) :
    FixedWindow.window l.windowSeconds.toNat (l.stateOf key) now.toNat =
      FixedWindow.window l.windowSeconds.toNat e now.toNat := by
  rcases h.same with hsame | ⟨hnone, hended⟩
  · rw [hsame]
  · rw [hnone, FixedWindow.window_of_lt hended]
    rfl

variable [DecidableEq D]

/-- A call of the key. -/
theorem Follows.check_self (h : Follows l key now.toNat e) :
    (l.check key now).2 = (FixedWindow.tick l.maxPerWindow.toNat l.windowSeconds.toNat e
        now.toNat).2 ∧
      Follows (l.check key now).1 key now.toNat (FixedWindow.tick l.maxPerWindow.toNat
        l.windowSeconds.toNat e now.toNat).1 := by
  have htick := RateLimiter.check_self h.timely key
  rw [FixedWindow.tick_congr h.window] at htick
  exact ⟨congrArg Prod.snd htick, h.timely.check key, Or.inl (congrArg Prod.fst htick)⟩

/-- A call of another key. -/
theorem Follows.check_other (h : Follows l key now.toNat e) (hne : key ≠ k) :
    Follows (l.check k now).1 key now.toNat e := by
  refine ⟨h.timely.check k, ?_⟩
  rw [check_windowSeconds]
  rcases stateOf_check_of_ne h.timely hne with hkept | ⟨hdropped, hended⟩
  · rw [hkept]
    exact h.same
  · rcases h.same with hsame | ⟨-, hended'⟩
    · exact Or.inr ⟨hdropped, hsame ▸ hended⟩
    · exact Or.inr ⟨hdropped, hended'⟩

/-- The first call counts if it is one of the key. -/
theorem timesOf_cons (key : Key D) (c : UInt64 × Key D) (calls : List (UInt64 × Key D)) :
    timesOf key (c :: calls) =
      if c.2 = key then c.1.toNat :: timesOf key calls else timesOf key calls := by
  rw [timesOf, callsOf, List.filter_cons]
  by_cases h : c.2 = key <;> simp [h, timesOf, callsOf]

/-- The answers to a key are those of its fixed windows. -/
theorem Follows.decided {n : Nat} (h : Follows l key n e) (htimed : Timed calls)
    (hlater : ∀ c ∈ calls, n ≤ c.1.toNat) :
    ((l.decided calls).filter fun d => d.1.2 = key).map (fun d => (d.1.1.toNat, d.2)) =
      FixedWindow.decisions l.maxPerWindow.toNat l.windowSeconds.toNat e (timesOf key calls) := by
  induction calls generalizing l n e with
  | nil => rfl
  | cons c calls ih =>
    obtain ⟨now, k⟩ := c
    obtain ⟨hle, htimed⟩ := List.pairwise_cons.mp htimed
    have hlater' : ∀ c ∈ calls, now.toNat ≤ c.1.toNat :=
      fun c hc => hle _ (List.mem_map_of_mem hc)
    have hnow := h.mono (hlater (now, k) List.mem_cons_self)
    rw [RateLimiter.decided, List.filter_cons, timesOf_cons]
    by_cases hk : k = key
    · subst hk
      obtain ⟨hanswer, hnext⟩ := hnow.check_self
      rw [if_pos (decide_eq_true rfl), if_pos rfl, List.map_cons, FixedWindow.decisions,
        ih hnext htimed hlater', hanswer, check_maxPerWindow, check_windowSeconds]
    · have hnext := hnow.check_other (Ne.symm hk)
      rw [if_neg (by simpa using hk), if_neg hk, ih hnext htimed hlater', check_maxPerWindow,
        check_windowSeconds]

/-- What the limiter has for a key after calls. -/
theorem Follows.after {n t : Nat} (h : Follows l key n e) (htimed : Timed calls)
    (hlater : ∀ c ∈ calls, n ≤ c.1.toNat) (hn : n ≤ t) (ht : ∀ c ∈ calls, c.1.toNat ≤ t) :
    Follows (l.after calls) key t (FixedWindow.after l.maxPerWindow.toNat
      l.windowSeconds.toNat e (timesOf key calls)) := by
  induction calls generalizing l n e with
  | nil => exact h.mono hn
  | cons c calls ih =>
    obtain ⟨now, k⟩ := c
    obtain ⟨hle, htimed⟩ := List.pairwise_cons.mp htimed
    obtain ⟨hfirst, ht⟩ := List.forall_mem_cons.mp ht
    have hlater' : ∀ c ∈ calls, now.toNat ≤ c.1.toNat :=
      fun c hc => hle _ (List.mem_map_of_mem hc)
    have hnow := h.mono (hlater (now, k) List.mem_cons_self)
    rw [timesOf_cons]
    by_cases hk : k = key
    · subst hk
      have hrest := ih hnow.check_self.2 htimed hlater' hfirst ht
      rw [check_maxPerWindow, check_windowSeconds] at hrest
      rw [if_pos rfl]
      exact hrest
    · have hrest := ih (hnow.check_other (Ne.symm hk)) htimed hlater' hfirst ht
      rw [check_maxPerWindow, check_windowSeconds] at hrest
      rw [if_neg hk]
      exact hrest

/-! ## The bound and the isolation -/

variable {maxPerWindow : UInt32} {windowSeconds : UInt64}

/-- The limiter decides about a key as a fixed window does. -/
theorem decided_withLimits (htimed : Timed calls) (key : Key D) :
    (((withLimits maxPerWindow windowSeconds).decided calls).filter fun d => d.1.2 = key).map
        (fun d => (d.1.1.toNat, d.2)) =
      FixedWindow.decisions maxPerWindow.toNat windowSeconds.toNat none (timesOf key calls) :=
  (follows_withLimits maxPerWindow windowSeconds key).decided htimed fun _ _ => Nat.zero_le _

/-- The calls of a key that are accepted are those that pass its window. -/
theorem accepted_eq_passed (htimed : Timed calls) (key : Key D) (a b : Nat) :
    accepted key a b ((withLimits maxPerWindow windowSeconds).decided calls) =
      FixedWindow.passed a b (FixedWindow.decisions maxPerWindow.toNat windowSeconds.toNat none
        (timesOf key calls)) := by
  rw [← decided_withLimits htimed, FixedWindow.passed, List.countP_map, List.countP_filter,
    accepted]
  refine List.countP_congr fun d _ => ?_
  simp only [Function.comp_apply, Bool.and_eq_true, decide_eq_true_eq]
  tauto

/-- The times of a key are in order. -/
theorem Timed.timesOf (h : Timed calls) (key : Key D) :
    (timesOf key calls).Pairwise (· ≤ ·) :=
  h.sublist (List.filter_sublist.map _)

/-- The calls of a key are in order. -/
theorem Timed.callsOf (h : Timed calls) (key : Key D) : Timed (callsOf key calls) :=
  h.timesOf key

/-- The answers to a key are the answers of the fixed windows to its calls. -/
theorem answersTo_eq (htimed : Timed calls) (key : Key D) :
    answersTo key ((withLimits maxPerWindow windowSeconds).decided calls) =
      (FixedWindow.decisions maxPerWindow.toNat windowSeconds.toNat none
        (timesOf key calls)).map Prod.snd := by
  rw [← decided_withLimits htimed, List.map_map]
  rfl

/-- The calls of a key have its times. -/
theorem timesOf_callsOf (key : Key D) (calls : List (UInt64 × Key D)) :
    timesOf key (callsOf key calls) = timesOf key calls := by
  simp [timesOf, callsOf, List.filter_filter]

/-- In every sequence of calls whose times do not go down: in an interval no longer than a window
at most twice the limit of a key's calls are accepted, and at most the limit from the start of a
window of the key to its end; a call of a key that has paused for longer than a window is accepted
if any are; and a key gets the answers that it gets without the calls of others. -/
theorem bound_and_isolation (maxPerWindow : UInt32) (windowSeconds : UInt64)
    (calls : List (UInt64 × Key D)) (htimed : Timed calls) (key : Key D) :
    (∀ a b, b ≤ a + windowSeconds.toNat →
      accepted key a b ((withLimits maxPerWindow windowSeconds).decided calls) ≤
        2 * maxPerWindow.toNat) ∧
    (∀ pre post w, calls = pre ++ post →
      ((withLimits maxPerWindow windowSeconds).after pre).requests key = some w →
      accepted key w.2.toNat (w.2.toNat + windowSeconds.toNat)
        ((withLimits maxPerWindow windowSeconds).decided calls) ≤ maxPerWindow.toNat) ∧
    (∀ pre now post, calls = pre ++ (now, key) :: post → 1 ≤ maxPerWindow →
      (∀ c ∈ pre, c.2 = key → c.1.toNat + windowSeconds.toNat < now.toNat) →
      (((withLimits maxPerWindow windowSeconds).after pre).check key now).2 = true) ∧
    answersTo key ((withLimits maxPerWindow windowSeconds).decided calls) =
      answersTo key ((withLimits maxPerWindow windowSeconds).decided (callsOf key calls)) := by
  have hfollows := follows_withLimits maxPerWindow windowSeconds key
  have hsplit : ∀ {pre post}, calls = pre ++ post →
      Timed pre ∧ ∀ c ∈ pre, ∀ c' ∈ post, c.1.toNat ≤ c'.1.toNat := by
    rintro pre post rfl
    rw [Timed, List.map_append] at htimed
    obtain ⟨hpre, -, hle⟩ := List.pairwise_append.mp htimed
    exact ⟨hpre, fun c hc c' hc' => hle _ (List.mem_map_of_mem hc) _ (List.mem_map_of_mem hc')⟩
  refine ⟨fun a b hb => ?_, fun pre post w heq hw => ?_, fun pre now post heq hlimit hpause => ?_,
    ?_⟩
  · rw [accepted_eq_passed htimed]
    exact FixedWindow.passed_le (htimed.timesOf key) (fun w hw => by cases hw) hb
  · have hafter := hfollows.after (hsplit heq).1 (fun _ _ => Nat.zero_le _) (Nat.zero_le _)
      fun c _ => Nat.le_of_lt c.1.toNat_lt
    have hstate : ((withLimits maxPerWindow windowSeconds).after pre).stateOf key =
        some (windowNat w) := by rw [stateOf, hw]; rfl
    have hopened := hafter.same.resolve_right fun h => by simp [hstate] at h
    rw [hstate] at hopened
    have htimes : timesOf key calls = timesOf key pre ++ timesOf key post := by
      rw [heq, timesOf, callsOf, List.filter_append, List.map_append]
      rfl
    rw [accepted_eq_passed htimed, htimes]
    exact FixedWindow.passed_from_opening (htimes ▸ htimed.timesOf key) hopened.symm
  · obtain ⟨hpre, hle⟩ := hsplit heq
    have hafter := hfollows.after hpre (fun _ _ => Nat.zero_le _) (Nat.zero_le now.toNat)
      fun c hc => hle c hc (now, key) List.mem_cons_self
    have hanswer := hafter.check_self.1
    rw [after_maxPerWindow, after_windowSeconds] at hanswer
    rw [hanswer]
    refine FixedWindow.tick_of_pause (UInt32.le_iff_toNat_le.mp hlimit) (hpre.timesOf key) ?_
    intro t ht
    obtain ⟨c, hc, rfl⟩ := List.mem_map.mp ht
    obtain ⟨hmem, hkey⟩ := List.mem_filter.mp hc
    exact hpause c hmem (of_decide_eq_true hkey)
  · rw [answersTo_eq htimed, answersTo_eq (htimed.callsOf key), timesOf_callsOf]

/-- A key that calls too often, beside another one. -/
def sampleKey : Key Nat := ⟨1, [2]⟩

/-- Its calls and those of the other key. -/
def sampleCalls : List (UInt64 × Key Nat) :=
  [(100, ⟨0, [1]⟩), (100, sampleKey), (130, sampleKey), (160, sampleKey), (161, ⟨0, [1]⟩),
    (161, sampleKey)]

/-- Of four sample calls the third is refused, and no more than two limits are accepted. -/
theorem bound_and_isolation_sampleCalls :
    answersTo sampleKey ((withLimits 2 60).decided sampleCalls) = [true, true, false, true] ∧
      accepted sampleKey 101 161 ((withLimits 2 60).decided sampleCalls) ≤ 4 := by
  have htimed : Timed sampleCalls := by
    unfold Timed
    decide
  obtain ⟨hbound, -, -, hisolated⟩ := bound_and_isolation 2 60 sampleCalls htimed sampleKey
  rw [hisolated]
  exact ⟨by decide +kernel, hbound 101 161 (by decide)⟩

end Bqti.Dht.RateLimiter
