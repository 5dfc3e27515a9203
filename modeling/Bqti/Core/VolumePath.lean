import Bqti.Core.Path
import Bqti.Core.Volume

/-!
# Paths on a volume

The system reads a path component by component. A path leads to a directory however it ends, but
it can name a file only if its last component is a name.
-/

namespace Bqti.Core

/-- What a component of a path asks for; an empty one and `.` stay where they are. -/
def hopOf (component : Name) : Option (Hop Name) :=
  if component = [] ∨ component = ['.'] then none
  else if component = ['.', '.'] then some .up
  else some (.into component)

/-- The components of a path. -/
def hopsOf (p : Path) : List (Hop Name) := (split p).filterMap hopOf

/-- Where a path begins. -/
def startOf (cwd : List Name) (p : Path) : List Name := if isAbsolute p then [] else cwd

/-- A path can name a file only if its last component is a name. -/
def endsOnName (p : Path) : Bool :=
  match (split p).getLast?.bind hopOf with
  | some (.into _) => true
  | some .up | none => false

/-- The system takes no name with a zero character in it. -/
def noNul (hops : List (Hop Name)) : Bool :=
  hops.all fun hop =>
    match hop with
    | .into name => !name.contains (Char.ofNat 0)
    | .up => true

namespace Volume

/-- The directory that a path leads to. -/
def leadsTo (vol : Volume Name) (cwd : List Name) (p : Path) : Option (List Name) :=
  if noNul (hopsOf p) then vol.follow (startOf cwd p) (hopsOf p) else none

/-- Whether a path leads to a file. -/
def isFile (vol : Volume Name) (cwd : List Name) (p : Path) : Bool :=
  endsOnName p && noNul (hopsOf p) && (vol.findFile (startOf cwd p) (hopsOf p)).isSome

/-- Whether a path leads to a directory or a file. -/
def existsPath (vol : Volume Name) (cwd : List Name) (p : Path) : Bool :=
  (vol.leadsTo cwd p).isSome || vol.isFile cwd p

/-- The place that a path names, whatever is held there. -/
def placeOf (vol : Volume Name) (cwd : List Name) (p : Path) : Option (List Name) :=
  (vol.locate (startOf cwd p) (hopsOf p)).map fun found => found.1 ++ [found.2]

/-- Make all directories of a path. -/
def createPath (vol : Volume Name) (cwd : List Name) (p : Path) : Option (Volume Name) :=
  if noNul (hopsOf p) then (vol.createDirs (startOf cwd p) (hopsOf p)).map Prod.fst else none

/-- Make the directories that a path lies in. -/
def ensureParentDirs (vol : Volume Name) (cwd : List Name) (p : Path) : Option (Volume Name) :=
  if noNul (hopsOf p).dropLast then
    (vol.createDirs (startOf cwd p) (hopsOf p).dropLast).map Prod.fst
  else none

/-- Open the file at a path for reading and writing, and create it if it is missing. -/
def openPath (vol : Volume Name) (cwd : List Name) (p : Path) : Option (Volume Name) :=
  if endsOnName p && noNul (hopsOf p) then vol.openWrite (startOf cwd p) (hopsOf p) else none

end Volume

section Joining

variable {buf p : Path}

/-- Joining a relative path puts its components behind those of the buffer. -/
theorem split_push (buf : Path) (hp : isAbsolute p = false) :
    ∃ front, split (push buf p) = front ++ split p ∧ front.filterMap hopOf = hopsOf buf := by
  rw [push, if_neg (by rw [hp]; exact Bool.false_ne_true)]
  split
  · exact ⟨split buf, split_append_slash buf p, rfl⟩
  · rename_i hbuf
    rcases List.eq_nil_or_concat buf with rfl | ⟨front, c, rfl⟩
    · exact ⟨[], rfl, rfl⟩
    · have hc : c = '/' := by
        by_contra hne
        exact hbuf ⟨by simp, by simpa using hne⟩
      subst hc
      refine ⟨split front, ?_, ?_⟩
      · rw [List.concat_eq_append, List.append_assoc, List.singleton_append, split_append_slash]
      · rw [hopsOf, List.concat_eq_append, split_append_slash front [], List.filterMap_append]
        simp [split, hopOf]

/-- The components of a relative path come behind those of the buffer. -/
theorem hopsOf_push (buf : Path) (hp : isAbsolute p = false) :
    hopsOf (push buf p) = hopsOf buf ++ hopsOf p := by
  obtain ⟨front, hsplit, hfront⟩ := split_push buf hp
  rw [hopsOf, hsplit, List.filterMap_append, hfront]
  rfl

/-- A pushed path ends as the relative path does. -/
theorem endsOnName_push (buf : Path) (hp : isAbsolute p = false) :
    endsOnName (push buf p) = endsOnName p := by
  obtain ⟨front, hsplit, -⟩ := split_push buf hp
  rw [endsOnName, hsplit, List.getLast?_append_of_ne_nil _ (split_ne_nil p)]
  rfl

/-- A pushed path starts where the buffer does. -/
theorem startOf_push (cwd : List Name) (buf : Path) (hp : isAbsolute p = false) :
    startOf cwd (push buf p) = startOf cwd buf := by
  have habs : isAbsolute (push buf p) = isAbsolute buf := by
    rw [push, if_neg (by rw [hp]; exact Bool.false_ne_true)]
    cases buf with
    | nil => simpa [isAbsolute] using hp
    | cons c rest => split <;> rfl
  rw [startOf, startOf, habs]

/-- The components of a path that ends on a name. -/
theorem hopsOf_of_endsOnName (h : endsOnName p = true) :
    ∃ front name, hopsOf p = front ++ [.into name] := by
  unfold endsOnName at h
  split at h
  · rename_i name hlast
    obtain ⟨component, hcomponent, hhop⟩ := Option.bind_eq_some_iff.mp hlast
    obtain ⟨front, hfront⟩ := List.getLast?_eq_some_iff.mp hcomponent
    refine ⟨front.filterMap hopOf, name, ?_⟩
    rw [hopsOf, hfront, List.filterMap_append, List.filterMap_cons, hhop, List.filterMap_nil]
  · contradiction
  · contradiction

end Joining

end Bqti.Core
