import Bqti.Core.Volume

/-!
# What a path sees of a volume

A path goes through directories and links, and the files are nothing to it. Where two volumes agree
on the directories and links that a path comes to, it leads to the same place in both, whatever
became of the files. Each operation is described by what it changes of the files and by where it
changes more than that.
-/

namespace Bqti.Core

/-- A path can go through a directory and a link. -/
def Entry.passable {N : Type*} : Entry N → Bool
  | .dir | .link _ => true
  | .file _ => false

namespace Volume

variable {N : Type*}

/-- What a path sees of a place. -/
def passage (vol : Volume N) (place : List N) : Option (Entry N) :=
  (vol.entry place).filter Entry.passable

/-- At some places paths see the same in two volumes. -/
def AgreeOn (P : List N → Prop) (vol vol' : Volume N) : Prop :=
  ∀ place, P place → vol'.passage place = vol.passage place

variable {P Q : List N → Prop} {vol vol' vol'' : Volume N} {place dir x : List N} {name : N}
  {e : Entry N}

/-- Volumes that agree with one volume agree with each other. -/
theorem AgreeOn.trans (h : AgreeOn P vol vol') (h' : AgreeOn P vol' vol'') :
    AgreeOn P vol vol'' := fun place hplace => (h' place hplace).trans (h place hplace)

/-- Volumes that agree on more places agree on fewer. -/
theorem AgreeOn.mono (h : AgreeOn Q vol vol') (hsub : ∀ place, P place → Q place) :
    AgreeOn P vol vol' := fun place hplace => h place (hsub place hplace)

/-- What is passable can be passed through. -/
theorem passage_eq_some_iff :
    vol.passage place = some e ↔ vol.entry place = some e ∧ e.passable = true :=
  Option.filter_eq_some_iff

/-- A file is nothing to a path. -/
theorem passage_eq_none_iff : vol.passage place = none ↔
    vol.entry place = none ∨ ∃ writable, vol.entry place = some (.file writable) := by
  rw [passage]
  rcases vol.entry place with _ | _ | _ | _ <;> simp [Entry.passable]

/-- What is passable on one volume is on the other. -/
theorem AgreeOn.entry_eq (h : AgreeOn P vol vol') (hx : P x) (hpassable : e.passable = true)
    (he : vol.entry x = some e) : vol'.entry x = some e := by
  have hsame := h x hx
  rw [passage_eq_some_iff.mpr ⟨he, hpassable⟩] at hsame
  exact (passage_eq_some_iff.mp hsame).1

/-- The same passable things are held on both volumes. -/
theorem AgreeOn.entry_eq_iff (h : AgreeOn P vol vol') (hx : P x) (hpassable : e.passable = true) :
    vol'.entry x = some e ↔ vol.entry x = some e :=
  ⟨AgreeOn.entry_eq (fun place hplace => (h place hplace).symm) hx hpassable,
    h.entry_eq hx hpassable⟩

section Walk

variable [DecidableEq N]

/-- A path comes only to some places: those under the names that it goes on to, and those that
the links there lead to. -/
def Stays (P : List N → Prop) (vol : Volume N) : List N → List (Hop N) → Prop
  | _, [] => True
  | place, hop :: hops =>
      (∀ name, hop = .into name → P (place ++ [name]) ∧
        ∀ target, vol.entry (place ++ [name]) = some (.link target) → P target) ∧
      ∀ next, vol.enter place hop = some next → Stays P vol next hops

variable {hop : Hop N} {hops : List (Hop N)}

/-- A component leads to the same directory on both volumes. -/
theorem AgreeOn.enter_eq (h : AgreeOn P vol vol')
    (hstays : ∀ name, hop = .into name → P (place ++ [name]) ∧
      ∀ target, vol.entry (place ++ [name]) = some (.link target) → P target) :
    vol'.enter place hop = vol.enter place hop := by
  cases hop with
  | up => rfl
  | into name =>
    obtain ⟨hname, htarget⟩ := hstays name rfl
    have hsame : ∀ e : Entry N, e.passable = true →
        (vol'.entry (place ++ [name]) = some e ↔ vol.entry (place ++ [name]) = some e) :=
      fun e => h.entry_eq_iff hname
    rcases hentry : vol.entry (place ++ [name]) with _ | _ | writable | target
    · rcases passage_eq_none_iff.mp
        ((h _ hname).trans (passage_eq_none_iff.mpr (Or.inl hentry))) with hnone | ⟨_, hfile⟩
      · simp only [enter, hentry, hnone]
      · simp only [enter, hentry, hfile]
    · simp only [enter, hentry, (hsame .dir rfl).mpr hentry]
    · rcases passage_eq_none_iff.mp ((h _ hname).trans
        (passage_eq_none_iff.mpr (Or.inr ⟨writable, hentry⟩))) with hnone | ⟨_, hfile⟩
      · simp only [enter, hentry, hnone]
      · simp only [enter, hentry, hfile]
    · have hdir : vol'.entry target = some .dir ↔ vol.entry target = some .dir :=
        h.entry_eq_iff (htarget target hentry) rfl
      simp only [enter, hentry, (hsame (.link target) rfl).mpr hentry, hdir]

/-- A path that stays where two volumes agree leads to the same place in both. -/
theorem AgreeOn.follow_eq (h : AgreeOn P vol vol') (hstays : Stays P vol place hops) :
    vol'.follow place hops = vol.follow place hops := by
  induction hops generalizing place with
  | nil => rfl
  | cons hop hops ih =>
    rw [follow, follow, List.foldlM_cons, List.foldlM_cons, h.enter_eq hstays.1]
    cases hnext : vol.enter place hop with
    | none => rfl
    | some next => exact ih (hstays.2 next hnext)

/-- Volumes that agree everywhere lead all paths to the same places. -/
theorem stays_everywhere (vol : Volume N) (place : List N) (hops : List (Hop N)) :
    Stays (fun _ => True) vol place hops := by
  induction hops generalizing place with
  | nil => trivial
  | cons hop hops ih => exact ⟨fun _ _ => ⟨trivial, fun _ _ => trivial⟩, fun next _ => ih next⟩

/-- A path of directories comes only to these. -/
theorem stays_of_dirs (h : ∀ x ∈ trail place hops, vol.entry x = some .dir ∧ P x) :
    Stays P vol place hops := by
  induction hops generalizing place with
  | nil => trivial
  | cons hop hops ih =>
    obtain ⟨⟨hdir, hP⟩, hrest⟩ := List.forall_mem_cons.mp h
    refine ⟨?_, fun next hnext => ?_⟩
    · rintro name rfl
      refine ⟨hP, fun target hlink => ?_⟩
      rw [Hop.after, hlink] at hdir
      cases hdir
    · obtain rfl := Option.some.inj ((enter_of_dir hdir).symm.trans hnext)
      exact ih hrest

end Walk

/-! ## What the operations change -/

section Operations

variable [DecidableEq N] {name' : N}

/-- Give a file of a directory another name there, in the place of anything but a directory. -/
def rename (vol : Volume N) (place : List N) (name name' : N) : Option (Volume N) :=
  match vol.entry (place ++ [name]) with
  | some (.file writable) =>
      (vol.put place name' (.file writable)).map fun moved => moved.remove place name
  | some .dir | some (.link _) | none => none

omit [DecidableEq N] in
/-- Below a file there is nothing. -/
theorem entry_below_file {writable : Bool} (h : vol.entry place = some (.file writable))
    (hbelow : place <+: x) (hne : x ≠ place) : vol.entry x = none := by
  obtain ⟨rest, rfl⟩ := hbelow
  by_contra hheld
  have hdir := dir_of_append hheld fun hnil => hne (by rw [hnil, List.append_nil])
  rw [h] at hdir
  cases hdir

/-- A file is renamed, and nothing else changes. -/
theorem rename_eq_some (h : vol.rename place name name' = some vol') (hne : name ≠ name') :
    ∃ writable, vol.entry (place ++ [name]) = some (.file writable) ∧
      vol.entry (place ++ [name']) ≠ some .dir ∧ vol'.entry (place ++ [name]) = none ∧
      vol'.entry (place ++ [name']) = some (.file writable) ∧
      ∀ x, x ≠ place ++ [name] → x ≠ place ++ [name'] → vol'.entry x = vol.entry x := by
  unfold rename at h
  split at h
  · rename_i writable hfile
    obtain ⟨moved, hput, rfl⟩ := Option.map_eq_some_iff.mp h
    obtain ⟨-, hfree, hentry⟩ := put_eq_some_iff.mp hput
    have hother : place ++ [name] ≠ place ++ [name'] := fun he => hne (by simpa using he)
    refine ⟨writable, hfile, hfree, if_pos (List.prefix_refl _), ?_, fun x hx hx' => ?_⟩
    · have hnot : ¬ place ++ [name] <+: place ++ [name'] := fun hbelow =>
        hother (hbelow.eq_of_length (by simp))
      exact (if_neg hnot).trans (by rw [hentry, Function.update_self])
    · by_cases hbelow : place ++ [name] <+: x
      · exact (if_pos hbelow).trans (entry_below_file hfile hbelow hx).symm
      · exact (if_neg hbelow).trans (by rw [hentry, Function.update_of_ne hx'])
  · contradiction
  · contradiction
  · contradiction

/-- Paths see nothing of a lock. -/
theorem passage_lock (vol : Volume N) (dir x : List N) :
    (vol.lock dir).passage x = vol.passage x := by
  simp only [passage, lock]
  split
  · rcases vol.entry x with _ | _ | _ | _ <;> rfl
  · rfl

/-- The files of other directories are not locked. -/
theorem entry_lock_of_ne (h : x.dropLast ≠ dir) : (vol.lock dir).entry x = vol.entry x :=
  if_neg fun hx => h hx.2

/-- No file of a locked directory may be written. -/
theorem entry_lock_ne (hx : x ≠ []) (h : x.dropLast = dir) :
    (vol.lock dir).entry x ≠ some (.file true) := by
  have hentry : (vol.lock dir).entry x = (vol.entry x).map .lock := if_pos ⟨hx, h⟩
  rw [hentry]
  rcases vol.entry x with _ | _ | _ | _ <;> simp [Entry.lock]

/-- Put a link under a name of a directory, in the place of whatever was there. -/
def replaceLink (vol : Volume N) (place : List N) (name : N) (target : List N) : Volume N :=
  match (vol.remove place name).put place name (.link target) with
  | some linked => linked
  | none => vol.remove place name

/-- Replacing a link changes its own place only, and what was below it. -/
theorem entry_replaceLink_of_ne (target : List N) (h : x ≠ place ++ [name]) :
    (vol.replaceLink place name target).entry x = (vol.remove place name).entry x := by
  unfold replaceLink
  split
  · rename_i hput
    rw [(put_eq_some_iff.mp hput).2.2, Function.update_of_ne h]
  · rfl

/-- Replacing something by a link changes nothing elsewhere. -/
theorem entry_replaceLink_of_not (target : List N) (h : ¬ place ++ [name] <+: x) :
    (vol.replaceLink place name target).entry x = vol.entry x := by
  have hne : x ≠ place ++ [name] := by
    rintro rfl
    exact h (List.prefix_refl _)
  exact (entry_replaceLink_of_ne target hne).trans (if_neg h)

/-- What was replaced by a link is gone with everything below it. -/
theorem entry_replaceLink_ne_file (target : List N) (h : place ++ [name] <+: x)
    (writable : Bool) : (vol.replaceLink place name target).entry x ≠ some (.file writable) := by
  have hremoved : (vol.remove place name).entry x = none := if_pos h
  by_cases hx : x = place ++ [name]
  · unfold replaceLink
    split
    · rename_i hput
      rw [hx, (put_eq_some_iff.mp hput).2.2, Function.update_self]
      simp
    · rw [hremoved]
      simp
  · rw [entry_replaceLink_of_ne target hx, hremoved]
    simp

end Operations

end Volume

end Bqti.Core
