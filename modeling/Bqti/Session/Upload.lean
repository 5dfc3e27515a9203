import Bqti.Core.VolumeNames
import Bqti.Session.Confinement
import Bqti.Torrent.Path

/-!
# Linking the files of a seed

Before a torrent is seeded its files get a second name below `uploads/<info hash>`, and the seeder
opens them there. Both sides work out the path of a file from its components. For a file without
components, which is what the builder makes of a single file, the link is named after the seeded
path and the seeder looks at the directory itself.
-/

namespace Bqti.Session

open Bqti.Core Bqti.Torrent

section Code

variable {N : Type*} [DecidableEq N]

/-- Where a file is linked. A file without components takes the name of the seeded path. -/
def linkTarget (internal user rel : List N) : Option (List N) :=
  if rel = [] then user.getLast?.map fun name => internal ++ [name] else some (internal ++ rel)

/-- Link one file: make the directories that it lies in, and give it its second name unless
something has that name already. -/
def linkFile (internal user : List N) (vol : Volume N) (rel : List N) : Option (Volume N) :=
  if vol.exists_ [] (intoAll user) then
    match vol.createDirs [] (intoAll (internal ++ rel).dropLast) with
    | none => none
    | some (made, _) =>
        match linkTarget internal user rel with
        | none => none
        | some target =>
            if made.exists_ [] (intoAll target) then some made
            else made.hardLink [] (intoAll (user ++ rel)) (intoAll target)
  else none

/-- Link the files of a seed one after the other. -/
def ensureUploadDir (internal user : List N) : Volume N → List (List N) → Option (Volume N)
  | vol, [] => some vol
  | vol, rel :: rels =>
      match linkFile internal user vol rel with
      | none => none
      | some linked => ensureUploadDir internal user linked rels

end Code

/-! ## What the earlier files leave -/

section Linking

variable {N : Type*} [DecidableEq N]

/-- What the linking of files puts at a place where nothing was: whether the first of them that
lies there or below makes a directory of it. -/
def laid (internal : List N) (rels : List (List N)) (place : List N) : Option Bool :=
  (rels.find? fun rel => place <+: internal ++ rel).map fun rel => place ≠ internal ++ rel

/-- The volume after some files were linked: what was there is still there, and the rest is what
these files laid. -/
structure After (vol : Volume N) (internal : List N) (before : List (List N)) (cur : Volume N) :
    Prop where
  keeps : vol.Keeps cur
  laid_none : ∀ place, vol.entry place = none → laid internal before place = none →
    cur.entry place = none
  laid_dir : ∀ place, vol.entry place = none → laid internal before place = some true →
    cur.entry place = some .dir
  laid_file : ∀ place, vol.entry place = none → laid internal before place = some false →
    ∃ writable, cur.entry place = some (.file writable)

variable {vol cur next : Volume N} {internal user rel place : List N} {before : List (List N)}

/-- Before the first file the volume is as it was. -/
theorem After.refl (vol : Volume N) (internal : List N) : After vol internal [] vol where
  keeps := Volume.Keeps.refl vol
  laid_none _ h _ := h
  laid_dir _ _ h := by cases h
  laid_file _ _ h := by cases h

/-- One more file lays what no earlier one has. -/
theorem laid_concat (internal : List N) (before : List (List N)) (rel place : List N) :
    laid internal (before ++ [rel]) place =
      (laid internal before place).or
        (if place <+: internal ++ rel then some (decide (place ≠ internal ++ rel)) else none) := by
  rw [laid, List.find?_append, Option.map_or]
  congr 1
  by_cases hplace : place <+: internal ++ rel
  · simp [hplace]
  · simp [hplace]

/-- What is laid after one more file was laid before, or lies on the way to it or in its place. -/
theorem laid_concat_eq_some {b : Bool} (h : laid internal (before ++ [rel]) place = some b) :
    laid internal before place = some b ∨
      laid internal before place = none ∧ place <+: internal ++ rel ∧
        b = decide (place ≠ internal ++ rel) := by
  rw [laid_concat, Option.or_eq_some_iff] at h
  refine h.imp_right fun ⟨hbefore, hlast⟩ => ⟨hbefore, ?_⟩
  split at hlast
  · exact ⟨‹_›, (Option.some.inj hlast).symm⟩
  · contradiction

/-- After some files a place holds what it held before, or what they laid there. -/
theorem After.entry_cases (h : After vol internal before cur) (place : List N) :
    vol.entry place ≠ none ∧ cur.entry place = vol.entry place ∨
      vol.entry place = none ∧
        (laid internal before place = none ∧ cur.entry place = none ∨
          laid internal before place = some true ∧ cur.entry place = some .dir ∨
          laid internal before place = some false ∧
            ∃ writable, cur.entry place = some (.file writable)) := by
  by_cases hvol : vol.entry place = none
  · refine Or.inr ⟨hvol, ?_⟩
    match hlaid : laid internal before place with
    | none => exact Or.inl ⟨rfl, h.laid_none place hvol hlaid⟩
    | some true => exact Or.inr (Or.inl ⟨rfl, h.laid_dir place hvol hlaid⟩)
    | some false => exact Or.inr (Or.inr ⟨rfl, h.laid_file place hvol hlaid⟩)
  · exact Or.inl ⟨hvol, h.keeps place hvol⟩

/-- What linking one more file leaves: directories on the way to it, and something in its place. -/
theorem After.concat {made : Volume N} {name : N} {front : List N}
    (h : After vol internal before cur) (hrel : internal ++ rel = front ++ [name])
    (hkeeps : cur.Keeps made)
    (hdirs : ∀ x, x <+: front → made.entry x = some .dir)
    (hothers : ∀ x, ¬ x <+: front ++ [name] → made.entry x = cur.entry x)
    (hfile : vol.entry (front ++ [name]) = none → laid internal before (front ++ [name]) = none →
      ∃ writable, made.entry (front ++ [name]) = some (.file writable)) :
    After vol internal (before ++ [rel]) made where
  keeps := h.keeps.trans hkeeps
  laid_none := by
    intro x hvol hlaid
    rw [laid_concat, Option.or_eq_none_iff, hrel] at hlaid
    have hnot : ¬ x <+: front ++ [name] := by
      intro hx
      rw [if_pos hx] at hlaid
      exact absurd hlaid.2 (by simp)
    rw [hothers x hnot, h.laid_none x hvol hlaid.1]
  laid_dir := by
    intro x hvol hlaid
    rcases laid_concat_eq_some hlaid with hbefore | ⟨-, hx, hne⟩
    · exact hkeeps.entry_eq (h.laid_dir x hvol hbefore)
    · rw [hrel] at hx hne
      exact hdirs x ((List.prefix_concat_iff.mp hx).resolve_left (of_decide_eq_true hne.symm))
  laid_file := by
    intro x hvol hlaid
    rcases laid_concat_eq_some hlaid with hbefore | ⟨hbefore, -, heq⟩
    · obtain ⟨writable, hfile⟩ := h.laid_file x hvol hbefore
      exact ⟨writable, hkeeps.entry_eq hfile⟩
    · obtain rfl : x = front ++ [name] := by
        rw [← hrel]
        exact not_not.mp (of_decide_eq_false heq.symm)
      exact hfile hvol hbefore

end Linking

/-! ## Torrents from a path -/

section Built

variable {N : Type*} [DecidableEq N] {vol : Volume N} {user : List N} {node : Node N Bytes}

/-- The volume holds the files of a tree that was found at a path. -/
def Holds (vol : Volume N) (user : List N) (node : Node N Bytes) : Prop :=
  ∀ f ∈ node.walk id, (vol.findFile [] (intoAll (user ++ f.1))).isSome = true

end Built

/-! ## A directory and a single file -/

end Bqti.Session
