import Mathlib.Logic.Function.Basic
import Mathlib.Tactic.Common
import Bqti.Core.Word

/-!
# Files under crashes

A program changes files by writing them and by renaming them. Writing truncates a file and then
adds bytes, so that a process that stops in the middle leaves a beginning of what it wrote; a
rename happens or does not. Replacing a file by writing another one and renaming it leaves the
old contents or the new ones at every moment.
-/

namespace Bqti.Core

variable {P : Type*} [DecidableEq P]

/-- The files by their names. -/
abbrev Files (P : Type*) := P → Option Bytes

/-- What a program does to files. -/
inductive FileAct (P : Type*)
  | write (path : P) (bytes : Bytes)
  | rename (source target : P)

namespace FileAct

/-- The files after an action. -/
def done (fs : Files P) : FileAct P → Files P
  | .write path bytes => Function.update fs path (some bytes)
  | .rename source target =>
      match fs source with
      | some bytes => Function.update (Function.update fs source none) target (some bytes)
      | none => fs

/-- The files in the middle of an action, when so many bytes are written. -/
def torn (fs : Files P) (n : Nat) : FileAct P → Files P
  | .write path bytes => Function.update fs path (some (bytes.take n))
  | .rename _ _ => fs

end FileAct

/-- Where a process stops: after so many actions, or in the middle of the next one. -/
structure Stop where
  after : Nat
  written : Option Nat

/-- The files after all actions. -/
def doAll (fs : Files P) (acts : List (FileAct P)) : Files P := acts.foldl FileAct.done fs

/-- The files that a process leaves when it stops. -/
def stopped (fs : Files P) (acts : List (FileAct P)) (stop : Stop) : Files P :=
  match stop.written, acts[stop.after]? with
  | some n, some act => act.torn (doAll fs (acts.take stop.after)) n
  | _, _ => doAll fs (acts.take stop.after)

/-- The files after a program that runs to its end or stops before. -/
def executed (fs : Files P) (acts : List (FileAct P)) : Option Stop → Files P
  | none => doAll fs acts
  | some stop => stopped fs acts stop

variable {fs : Files P} {path tmp : P} {bytes : Bytes}

/-! ## Other files -/

/-- The files that an action is about. -/
def FileAct.paths : FileAct P → List P
  | .write path _ => [path]
  | .rename source target => [source, target]

/-- A file action changes its own paths only. -/
theorem FileAct.done_other {act : FileAct P} {other : P} (h : other ∉ act.paths) :
    act.done fs other = fs other := by
  cases act with
  | write path bytes =>
    simp only [FileAct.paths, List.mem_singleton] at h
    rw [FileAct.done, Function.update_of_ne h]
  | rename source target =>
    simp only [FileAct.paths, List.mem_cons, List.not_mem_nil, or_false, not_or] at h
    cases hsource : fs source with
    | none => simp only [FileAct.done, hsource]
    | some bytes =>
      simp only [FileAct.done, hsource]
      rw [Function.update_of_ne h.2, Function.update_of_ne h.1]

/-- A torn file action changes its own paths only. -/
theorem FileAct.torn_other {act : FileAct P} {other : P} (h : other ∉ act.paths) (n : Nat) :
    act.torn fs n other = fs other := by
  cases act with
  | write path bytes =>
    simp only [FileAct.paths, List.mem_singleton] at h
    rw [FileAct.torn, Function.update_of_ne h]
  | rename source target => rfl

/-- File actions change their own paths only. -/
theorem doAll_other {acts : List (FileAct P)} {other : P} (h : ∀ act ∈ acts, other ∉ act.paths) :
    doAll fs acts other = fs other := by
  induction acts generalizing fs with
  | nil => rfl
  | cons act acts ih =>
    obtain ⟨hact, hacts⟩ := List.forall_mem_cons.mp h
    exact (ih hacts).trans (FileAct.done_other hact)

/-- Wherever a program stops, files that none of its actions is about are as they were. -/
theorem executed_other {acts : List (FileAct P)} {other : P}
    (h : ∀ act ∈ acts, other ∉ act.paths) (stop : Option Stop) :
    executed fs acts stop other = fs other := by
  cases stop with
  | none => exact doAll_other h
  | some stop =>
    have htake : ∀ act ∈ acts.take stop.after, other ∉ act.paths := fun act hact =>
      h act (List.mem_of_mem_take hact)
    have hdone : doAll fs (acts.take stop.after) other = fs other := doAll_other htake
    cases hact : acts[stop.after]? with
    | none => cases hn : stop.written <;> simpa only [executed, stopped, hact, hn] using hdone
    | some act =>
      have htorn : ∀ n, act.torn (doAll fs (acts.take stop.after)) n other =
          doAll fs (acts.take stop.after) other :=
        FileAct.torn_other (h act (List.mem_of_getElem? hact))
      cases hn : stop.written with
      | none => simpa only [executed, stopped, hact, hn] using hdone
      | some n => simpa only [executed, stopped, hact, hn] using (htorn n).trans hdone

/-! ## One program after another -/

/-- Where a process stops behind its first actions; if it does not get there, nothing is left to
happen. -/
def past (n : Nat) : Option Stop → Option Stop
  | none => none
  | some stop => if stop.after < n then some ⟨0, none⟩ else some ⟨stop.after - n, stop.written⟩

/-- A stop before the first action changes nothing. -/
theorem executed_untouched (acts : List (FileAct P)) : executed fs acts (some ⟨0, none⟩) = fs := rfl

/-- No actions change nothing. -/
theorem executed_nil (stop : Option Stop) : executed fs [] stop = fs := by
  cases stop with
  | none => rfl
  | some stop => cases hn : stop.written <;> simp [executed, stopped, doAll, hn]

/-- Two programs, one after the other, and a stop in one of them. -/
theorem executed_append (first second : List (FileAct P)) (stop : Option Stop) :
    executed fs (first ++ second) stop =
      executed (executed fs first stop) second (past first.length stop) := by
  cases stop with
  | none => exact List.foldl_append
  | some stop =>
    by_cases hfirst : stop.after < first.length
    · have hact : (first ++ second)[stop.after]? = first[stop.after]? :=
        List.getElem?_append_left hfirst
      have htake : (first ++ second).take stop.after = first.take stop.after :=
        List.take_append_of_le_length (Nat.le_of_lt hfirst)
      rw [past, if_pos hfirst, executed_untouched]
      simp only [executed, stopped, hact, htake]
    · have hle : first.length ≤ stop.after := Nat.le_of_not_lt hfirst
      have hact : (first ++ second)[stop.after]? = second[stop.after - first.length]? :=
        List.getElem?_append_right hle
      have htake : (first ++ second).take stop.after =
          first ++ second.take (stop.after - first.length) := by
        rw [List.take_append, List.take_of_length_le hle]
      have hdone : executed fs first (some stop) = doAll fs first := by
        have hnone : first[stop.after]? = none := List.getElem?_eq_none hle
        cases hn : stop.written <;>
          simp only [executed, stopped, hn, hnone, List.take_of_length_le hle]
      rw [past, if_neg hfirst, hdone]
      simp only [executed, stopped, hact, htake, doAll, List.foldl_append]

/-! ## One write -/

/-- What a write leaves in the file, if it gets so far as to open it. -/
def leaves (bytes : Bytes) : Option Stop → Option Bytes
  | none => some bytes
  | some stop =>
      match stop.after, stop.written with
      | 0, none => none
      | 0, some n => some (bytes.take n)
      | _ + 1, _ => some bytes

/-- What a stop leaves of some bytes is their beginning. -/
theorem isPrefix_of_leaves {stop : Option Stop} {left : Bytes}
    (h : leaves bytes stop = some left) : left <+: bytes := by
  unfold leaves at h
  split at h
  · cases h
    exact List.prefix_rfl
  · split at h
    · cases h
    · cases h
      exact List.take_prefix _ _
    · cases h
      exact List.prefix_rfl

/-- A write that stops leaves the old contents or a beginning of the new ones. -/
theorem executed_write (fs : Files P) (path : P) (bytes : Bytes) (stop : Option Stop) :
    executed fs [.write path bytes] stop path = (leaves bytes stop).or (fs path) := by
  cases stop with
  | none => simp [executed, doAll, FileAct.done, leaves]
  | some stop =>
    obtain ⟨after, written⟩ := stop
    cases after with
    | zero => cases written <;> simp [executed, stopped, doAll, FileAct.torn, leaves]
    | succ k => cases written <;> simp [executed, stopped, doAll, FileAct.done, leaves]

/-! ## Replacing a file -/

/-- Write another file and rename it. -/
def replaceFile (tmp path : P) (bytes : Bytes) : List (FileAct P) :=
  [.write tmp bytes, .rename tmp path]

/-- Whether a program that replaces a file gets so far. -/
def replaced : Option Stop → Bool
  | none => true
  | some stop => decide (2 ≤ stop.after)

/-- A replaced file holds the new bytes. -/
theorem doAll_replaceFile :
    doAll fs (replaceFile tmp path bytes) path = some bytes := by
  simp [doAll, replaceFile, FileAct.done]

/-- Wherever a replacement stops, the file has its old contents or the new ones. -/
theorem executed_replaceFile (hne : tmp ≠ path) (stop : Option Stop) :
    executed fs (replaceFile tmp path bytes) stop path =
      if replaced stop then some bytes else fs path := by
  cases stop with
  | none => exact doAll_replaceFile
  | some stop =>
    obtain ⟨after, written⟩ := stop
    match after with
    | 0 =>
      cases written <;>
        simp [executed, stopped, replaced, doAll, replaceFile, FileAct.torn, hne.symm]
    | 1 =>
      cases written <;>
        simp [executed, stopped, replaced, doAll, replaceFile, FileAct.done, FileAct.torn, hne.symm]
    | k + 2 =>
      have hall : doAll fs (replaceFile tmp path bytes) path = some bytes := doAll_replaceFile
      cases written <;> simpa [executed, stopped, replaced, replaceFile] using hall

end Bqti.Core
