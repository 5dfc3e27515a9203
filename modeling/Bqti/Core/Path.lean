import Mathlib.Data.List.Basic
import Mathlib.Data.List.Nodup
import Mathlib.Tactic.Common

/-!
# Paths and where they lead

A path is a string; joining follows the rules of `PathBuf` on Unix, where an absolute path
replaces what it is joined to. Resolving is lexical: empty and `.` components stay, `..` goes
up, and going up from the root stays there.
-/

namespace Bqti.Core

/-- One component of a path. -/
abbrev Name := List Char

/-- A path as it is handed to the operating system. -/
abbrev Path := List Char

/-- A path that starts at the root. -/
def isAbsolute (p : Path) : Bool := p.head? == some '/'

/-- Join a path to a buffer. -/
def push (buf p : Path) : Path :=
  if isAbsolute p then p
  else if buf ≠ [] ∧ buf.getLast? ≠ some '/' then buf ++ '/' :: p
  else buf ++ p

/-- Collect components into a path. -/
def ofComponents (components : List Path) : Path := components.foldl push []

/-- Cut a path at its separators. -/
def split : Path → List Name
  | [] => [[]]
  | c :: p => if c = '/' then [] :: split p
      else match split p with
        | [] => [[c]]
        | name :: names => (c :: name) :: names

/-- Follow one component. -/
def enter (dir : List Name) (name : Name) : List Name :=
  if name = [] ∨ name = ['.'] then dir
  else if name = ['.', '.'] then dir.dropLast
  else dir ++ [name]

/-- Follow components one after the other. -/
def walk (dir names : List Name) : List Name := names.foldl enter dir

/-- Where a path leads from a working directory. -/
def resolve (cwd : List Name) (p : Path) : List Name :=
  walk (if isAbsolute p then [] else cwd) (split p)

/-- Follow components without ever leaving the place where `dir` begins. -/
def climb : List Name → List Name → Option (List Name)
  | dir, [] => some dir
  | dir, name :: names =>
      if name = ['.', '.'] ∧ dir = [] then none else climb (enter dir name) names

/-- A place strictly inside a directory. -/
def Inside (dir place : List Name) : Prop := ∃ rest, rest ≠ [] ∧ place = dir ++ rest

/-- A component that is a name of its own. -/
structure Plain (name : Name) : Prop where
  ne_nil : name ≠ []
  ne_dot : name ≠ ['.']
  ne_dots : name ≠ ['.', '.']
  no_slash : '/' ∉ name

variable {cwd dir above names : List Name} {name c : Name} {buf p q : Path}

/-! ## Cutting and joining -/

/-- There is always a first component. -/
theorem split_ne_nil (p : Path) : split p ≠ [] := by
  cases p with
  | nil => simp [split]
  | cons c p =>
    simp only [split]
    split
    · simp
    · split <;> simp

/-- A separator cuts a path in two. -/
theorem split_append_slash (p q : Path) : split (p ++ '/' :: q) = split p ++ split q := by
  induction p with
  | nil => rfl
  | cons c p ih =>
    simp only [List.cons_append, split, ih]
    by_cases hc : c = '/'
    · simp [hc]
    · rw [if_neg hc, if_neg hc]
      cases hs : split p with
      | nil => exact absurd hs (split_ne_nil p)
      | cons name names => rfl

/-- A path without separators is one component. -/
theorem split_of_no_slash (h : '/' ∉ p) : split p = [p] := by
  induction p with
  | nil => rfl
  | cons c p ih =>
    have hc : c ≠ '/' := fun he => h (he ▸ List.mem_cons_self)
    rw [split, if_neg hc, ih fun hp => h (List.mem_cons_of_mem _ hp)]

/-- Following a list of components in two parts. -/
theorem walk_append (dir xs ys : List Name) : walk dir (xs ++ ys) = walk (walk dir xs) ys :=
  List.foldl_append

/-- Joining a relative path is following it from where the buffer leads. -/
theorem resolve_push (cwd : List Name) (buf : Path) (hp : isAbsolute p = false) :
    resolve cwd (push buf p) = walk (resolve cwd buf) (split p) := by
  have hsep : ∀ front : Path, resolve cwd (front ++ '/' :: p) =
      walk (resolve cwd (front ++ ['/'])) (split p) := by
    intro front
    have habs : isAbsolute (front ++ '/' :: p) = isAbsolute (front ++ ['/']) := by
      cases front <;> rfl
    have hcut := split_append_slash front []
    simp only [resolve, habs, split_append_slash, hcut, walk_append]
    rfl
  rw [push, if_neg (by rw [hp]; exact Bool.false_ne_true)]
  split
  · rename_i hbuf
    have hsame : resolve cwd (buf ++ ['/']) = resolve cwd buf := by
      have habs : isAbsolute (buf ++ ['/']) = isAbsolute buf := by
        cases buf with
        | nil => exact absurd rfl hbuf.1
        | cons c rest => rfl
      rw [resolve, habs, split_append_slash, walk_append]
      rfl
    rw [hsep, hsame]
  · rename_i hbuf
    rcases List.eq_nil_or_concat buf with rfl | ⟨front, c, rfl⟩
    · simp only [List.nil_append, resolve, hp]
      rfl
    · have hc : c = '/' := by
        by_contra hne
        refine hbuf ⟨by simp, ?_⟩
        simpa using hne
      subst hc
      rw [List.concat_eq_append, List.append_assoc, List.singleton_append]
      exact hsep front

/-- Joining an absolute path forgets the buffer. -/
theorem push_of_absolute (buf : Path) (hp : isAbsolute p = true) : push buf p = p := if_pos hp

/-! ## Following components -/

/-- A plain name is appended. -/
theorem enter_plain (dir : List Name) (h : Plain name) : enter dir name = dir ++ [name] := by
  rw [enter, if_neg, if_neg h.ne_dots]
  rintro (hn | hn)
  · exact h.ne_nil hn
  · exact h.ne_dot hn

/-- A plain name is not absolute. -/
theorem Plain.isAbsolute_eq_false (h : Plain name) : isAbsolute name = false := by
  cases name with
  | nil => rfl
  | cons c rest =>
    have hc : c ≠ '/' := fun he => h.no_slash (he ▸ List.mem_cons_self)
    simp [isAbsolute, hc]

/-- Joining a plain name goes one level down. -/
theorem resolve_push_plain (cwd : List Name) (buf : Path) (h : Plain name) :
    resolve cwd (push buf name) = resolve cwd buf ++ [name] := by
  rw [resolve_push cwd buf h.isAbsolute_eq_false, split_of_no_slash h.no_slash]
  exact enter_plain _ h

/-- A component that does not leave `dir` does not see what is above it. -/
theorem enter_append (h : ¬ (name = ['.', '.'] ∧ dir = [])) :
    enter (above ++ dir) name = above ++ enter dir name := by
  unfold enter
  split
  · rfl
  · split
    · rename_i hdots
      have hdir : dir ≠ [] := fun he => h ⟨hdots, he⟩
      rw [List.dropLast_append_of_ne_nil hdir]
    · rw [List.append_assoc]

/-- A climb that stays below says where the path leads from any place above. -/
theorem walk_of_climb {place : List Name} (h : climb dir names = some place) :
    walk (above ++ dir) names = above ++ place := by
  induction names generalizing dir with
  | nil =>
    rw [climb] at h
    rw [← Option.some.inj h]
    rfl
  | cons name names ih =>
    rw [climb] at h
    split at h
    · exact absurd h (by simp)
    · rename_i hname
      have hnext := ih h
      rwa [← enter_append hname] at hnext

/-- What a walk passes through at its end was there or was named. -/
theorem mem_walk (h : name ∈ walk dir names) : name ∈ dir ∨ name ∈ names := by
  induction names generalizing dir with
  | nil => exact Or.inl h
  | cons first names ih =>
    rcases ih h with hmem | hmem
    · unfold enter at hmem
      split at hmem
      · exact Or.inl hmem
      · split at hmem
        · exact Or.inl (List.dropLast_subset _ hmem)
        · rcases List.mem_append.mp hmem with hold | hnew
          · exact Or.inl hold
          · rw [List.mem_singleton.mp hnew]
            exact Or.inr List.mem_cons_self
    · exact Or.inr (List.mem_cons_of_mem _ hmem)

/-- A path that leaves the place where `dir` begins does not come back below a directory whose
name it does not mention. -/
theorem head_walk_of_climb_none (h : climb dir names = none) (hc : c ∉ names) :
    (walk (c :: dir) names).head? ≠ some c := by
  induction names generalizing dir with
  | nil => exact absurd h (by simp [climb])
  | cons name names ih =>
    have hcs : c ∉ names := fun hmem => hc (List.mem_cons_of_mem _ hmem)
    rw [climb] at h
    split at h
    · rename_i hleave
      obtain ⟨rfl, rfl⟩ := hleave
      intro hhead
      have hmem : c ∈ walk [] names := List.mem_of_mem_head? hhead
      rcases mem_walk hmem with hnil | hname
      · exact List.not_mem_nil hnil
      · exact hcs hname
    · rename_i hstay
      have hnext : enter ([c] ++ dir) name = [c] ++ enter dir name := enter_append hstay
      have hgoal := ih h hcs
      rwa [← List.singleton_append, ← hnext] at hgoal

/-- The head of a nonempty directory is the head of every place inside it. -/
theorem Inside.head?_eq {place : List Name} (h : Inside (c :: dir) place) :
    place.head? = some c := by
  obtain ⟨rest, -, rfl⟩ := h
  rfl

/-! ## A name that does not occur -/

/-- A name longer than all names of a list. -/
def fresh (names : List Name) : Name := List.replicate (names.flatten.length + 3) 'x'

/-- The longer name does not occur. -/
theorem fresh_not_mem (names : List Name) : fresh names ∉ names := by
  intro hmem
  have hle : (fresh names).length ≤ names.flatten.length :=
    (List.sublist_flatten_of_mem hmem).length_le
  simp only [fresh, List.length_replicate] at hle
  omega

/-- The longer name is a plain name. -/
theorem plain_fresh (names : List Name) : Plain (fresh names) := by
  refine ⟨?_, ?_, ?_, ?_⟩
  · simp [fresh]
  · intro h
    have hlen := congrArg List.length h
    simp [fresh] at hlen
  · intro h
    have hlen := congrArg List.length h
    simp [fresh] at hlen
  · intro h
    have hx := List.eq_of_mem_replicate h
    exact absurd hx (by decide)

end Bqti.Core
