import Mathlib.Data.List.Infix
import Mathlib.Logic.Function.Basic

/-!
# A volume of directories and files

A place is the list of names that lead to it from the root, and a volume says what is held at each
place. Something is held below a place only if that place is a directory, so whatever changes a
volume has to keep that. Links lead to directories: a link whose target is no directory leads
nowhere, and nothing is opened through it.
-/

namespace Bqti.Core

/-- What a place holds: a directory, a file, which its owner may be allowed to write, or a link to
the directory at another place. -/
inductive Entry (N : Type*)
  | dir
  | file (writable : Bool)
  | link (target : List N)
  deriving DecidableEq, Repr

/-- Nobody may write a file any more. -/
def Entry.lock {N : Type*} : Entry N → Entry N
  | .file _ => .file false
  | e => e

/-- What is held at each place, with directories on the way to it. -/
@[ext] structure Volume (N : Type*) where
  entry : List N → Option (Entry N)
  root : entry [] = some .dir
  parents : ∀ place name, entry (place ++ [name]) ≠ none → entry place = some .dir

/-- One component of a path: go up, or on to a name. -/
inductive Hop (N : Type*)
  | up
  | into (name : N)
  deriving DecidableEq, Repr

/-- Where a component leads in a volume without links. -/
def Hop.after {N : Type*} (place : List N) : Hop N → List N
  | .up => place.dropLast
  | .into name => place ++ [name]

/-- Where components lead in a volume without links. -/
def arrive {N : Type*} (place : List N) (hops : List (Hop N)) : List N :=
  hops.foldl Hop.after place

/-- The places that components lead through, the last one included. -/
def trail {N : Type*} (place : List N) : List (Hop N) → List (List N)
  | [] => []
  | hop :: hops => hop.after place :: trail (hop.after place) hops

/-- The components of a path that goes on to one name after the other. -/
def intoAll {N : Type*} (names : List N) : List (Hop N) := names.map .into

/-- Components are passed one after the other. -/
theorem arrive_append {N : Type*} (place : List N) (hops hops' : List (Hop N)) :
    arrive place (hops ++ hops') = arrive (arrive place hops) hops' := List.foldl_append

/-- Names lead to the place of these names. -/
theorem arrive_intoAll {N : Type*} (place names : List N) :
    arrive place (intoAll names) = place ++ names := by
  induction names generalizing place with
  | nil => exact (List.append_nil place).symm
  | cons name names ih =>
    refine (ih (place ++ [name])).trans ?_
    rw [List.append_assoc, List.singleton_append]

/-- A path of names leads through its beginnings. -/
theorem mem_trail_intoAll {N : Type*} {place names x : List N} : x ∈ trail place (intoAll names) ↔
    ∃ front, front ≠ [] ∧ front <+: names ∧ x = place ++ front := by
  induction names generalizing place with
  | nil =>
    refine iff_of_false List.not_mem_nil ?_
    rintro ⟨front, hne, hfront, -⟩
    exact hne (List.prefix_nil.mp hfront)
  | cons name names ih =>
    rw [intoAll, List.map_cons, trail, List.mem_cons, ← intoAll, ih, Hop.after]
    constructor
    · rintro (rfl | ⟨front, -, hfront, rfl⟩)
      · exact ⟨[name], by simp, by simp, rfl⟩
      · exact ⟨name :: front, by simp, (List.prefix_cons_inj name).mpr hfront, by simp⟩
    · rintro ⟨front, hne, hfront, rfl⟩
      obtain ⟨first, front, rfl⟩ := List.exists_cons_of_ne_nil hne
      obtain ⟨rfl, hrest⟩ := List.cons_prefix_cons.mp hfront
      rcases eq_or_ne front [] with rfl | hne
      · exact Or.inl rfl
      · exact Or.inr ⟨front, hne, hrest, by simp⟩

/-- Names are gone into one after the other. -/
theorem intoAll_append {N : Type*} (names names' : List N) :
    intoAll (names ++ names') = intoAll names ++ intoAll names' := List.map_append

namespace Volume

variable {N : Type*} [DecidableEq N]

/-! ## Operations -/

/-- Hold something at a name of a directory, in the place of anything but a directory. -/
def put (vol : Volume N) (place : List N) (name : N) (e : Entry N) : Option (Volume N) :=
  if h : vol.entry place = some .dir ∧ vol.entry (place ++ [name]) ≠ some .dir then
    some
      { entry := Function.update vol.entry (place ++ [name]) (some e)
        root := by rw [Function.update_of_ne (by simp), vol.root]
        parents := by
          intro other last hheld
          have hother : vol.entry other = some .dir := by
            by_cases hplace : other ++ [last] = place ++ [name]
            · rw [List.append_inj_left' hplace rfl, h.1]
            · rw [Function.update_of_ne hplace] at hheld
              exact vol.parents other last hheld
          rw [Function.update_of_ne, hother]
          rintro rfl
          exact h.2 hother }
  else none

/-- Remove what is held at a name, with everything below it. -/
def remove (vol : Volume N) (place : List N) (name : N) : Volume N where
  entry other := if place ++ [name] <+: other then none else vol.entry other
  root := by rw [if_neg (by simp), vol.root]
  parents := by
    intro other last hheld
    split at hheld
    · exact absurd rfl hheld
    · rename_i hnot
      rw [if_neg fun hbelow => hnot (hbelow.trans (List.prefix_append _ _))]
      exact vol.parents other last hheld

/-- Let nobody write the files directly in a directory any more. -/
def lock (vol : Volume N) (place : List N) : Volume N where
  entry other :=
    if other ≠ [] ∧ other.dropLast = place then (vol.entry other).map .lock else vol.entry other
  root := by rw [if_neg (by simp), vol.root]
  parents := by
    intro other last hheld
    have hother : vol.entry other = some .dir := by
      apply vol.parents other last
      split at hheld
      · exact fun hnone => hheld (by rw [hnone, Option.map_none])
      · exact hheld
    rw [hother]
    split <;> rfl

/-- Follow one component. -/
def enter (vol : Volume N) (place : List N) : Hop N → Option (List N)
  | .up => some place.dropLast
  | .into name =>
      match vol.entry (place ++ [name]) with
      | some .dir => some (place ++ [name])
      | some (.link target) => if vol.entry target = some .dir then some target else none
      | some (.file _) | none => none

/-- The directory that components lead to. -/
def follow (vol : Volume N) (place : List N) (hops : List (Hop N)) : Option (List N) :=
  hops.foldlM vol.enter place

/-- The directory and the name that components end on. -/
def locate (vol : Volume N) (place : List N) (hops : List (Hop N)) : Option (List N × N) :=
  match hops.getLast? with
  | some (.into name) => (vol.follow place hops.dropLast).map fun dir => (dir, name)
  | some .up | none => none

/-- Whether a file is found, and what it is. -/
def findFile (vol : Volume N) (place : List N) (hops : List (Hop N)) : Option (Entry N) :=
  match vol.locate place hops with
  | some (dir, name) =>
      match vol.entry (dir ++ [name]) with
      | some (.file writable) => some (.file writable)
      | some .dir | some (.link _) | none => none
  | none => none

/-- Whether a directory or a file is found. -/
def exists_ (vol : Volume N) (place : List N) (hops : List (Hop N)) : Bool :=
  (vol.follow place hops).isSome || (vol.findFile place hops).isSome

/-- Make sure that there is a directory to follow a component to. -/
def makeDir (vol : Volume N) (place : List N) : Hop N → Option (Volume N × List N)
  | .up => some (vol, place.dropLast)
  | .into name =>
      match vol.entry (place ++ [name]) with
      | none => (vol.put place name .dir).map fun made => (made, place ++ [name])
      | some _ => (vol.enter place (.into name)).map fun next => (vol, next)

/-- Make all directories that components lead through. -/
def createDirs (vol : Volume N) (place : List N) : List (Hop N) → Option (Volume N × List N)
  | [] => some (vol, place)
  | hop :: hops =>
      match vol.makeDir place hop with
      | none => none
      | some (made, next) => made.createDirs next hops

/-- Open a file for reading and writing, and create it if it is missing. -/
def openWrite (vol : Volume N) (place : List N) (hops : List (Hop N)) : Option (Volume N) :=
  match vol.locate place hops with
  | some (dir, name) =>
      match vol.entry (dir ++ [name]) with
      | none => vol.put dir name (.file true)
      | some (.file true) => some vol
      | some (.file false) | some .dir | some (.link _) => none
  | none => none

/-- Give a file another name. -/
def hardLink (vol : Volume N) (place : List N) (source target : List (Hop N)) :
    Option (Volume N) :=
  match vol.findFile place source, vol.locate place target with
  | some e, some (dir, name) =>
      if vol.entry (dir ++ [name]) = none then vol.put dir name e else none
  | _, _ => none

variable {vol vol' : Volume N} {place target dir : List N} {name : N} {e : Entry N} {hop : Hop N}
  {hops : List (Hop N)}

/-! ## What is held on the way -/

omit [DecidableEq N] in
/-- Something is held only below directories. -/
theorem dir_of_append {rest : List N} (h : vol.entry (place ++ rest) ≠ none) (hrest : rest ≠ []) :
    vol.entry place = some .dir := by
  induction rest using List.reverseRecOn with
  | nil => exact absurd rfl hrest
  | append_singleton rest last ih =>
    rw [← List.append_assoc] at h
    have hdir := vol.parents _ _ h
    by_cases hnil : rest = []
    · rwa [hnil, List.append_nil] at hdir
    · exact ih (by rw [hdir]; simp) hnil

omit [DecidableEq N] in
/-- A directory lies in a directory. -/
theorem dir_dropLast (h : vol.entry place = some .dir) : vol.entry place.dropLast = some .dir := by
  rcases List.eq_nil_or_concat place with rfl | ⟨front, last, rfl⟩
  · exact h
  · rw [List.concat_eq_append] at h ⊢
    rw [List.dropLast_concat]
    exact vol.parents front last (by rw [h]; simp)

/-- What putting changes. -/
theorem put_eq_some_iff : vol.put place name e = some vol' ↔
    vol.entry place = some .dir ∧ vol.entry (place ++ [name]) ≠ some .dir ∧
      vol'.entry = Function.update vol.entry (place ++ [name]) (some e) := by
  unfold put
  split
  · rename_i h
    rw [Option.some.injEq, Volume.ext_iff]
    exact ⟨fun he => ⟨h.1, h.2, he.symm⟩, fun he => he.2.2.symm⟩
  · rename_i h
    exact iff_of_false (by simp) fun he => h ⟨he.1, he.2.1⟩

/-- Something is put at a name that is no directory. -/
theorem exists_put (e : Entry N) (hdir : vol.entry place = some .dir)
    (hfree : vol.entry (place ++ [name]) ≠ some .dir) :
    ∃ vol', vol.put place name e = some vol' ∧
      vol'.entry = Function.update vol.entry (place ++ [name]) (some e) := by
  rw [put, dif_pos ⟨hdir, hfree⟩]
  exact ⟨_, rfl, rfl⟩

/-! ## Keeping what is there -/

/-- Everything that a volume holds is still there in another. -/
def Keeps (vol vol' : Volume N) : Prop :=
  ∀ place, vol.entry place ≠ none → vol'.entry place = vol.entry place

omit [DecidableEq N] in
/-- A volume keeps what it holds. -/
theorem Keeps.refl (vol : Volume N) : vol.Keeps vol := fun _ _ => rfl

omit [DecidableEq N] in
/-- What is kept twice is kept. -/
theorem Keeps.trans {vol'' : Volume N} (h : vol.Keeps vol') (h' : vol'.Keeps vol'') :
    vol.Keeps vol'' := by
  intro place hheld
  have hsame := h place hheld
  rw [← hsame] at hheld ⊢
  exact h' place hheld

omit [DecidableEq N] in
/-- What was held at a place is held there later. -/
theorem Keeps.entry_eq (h : vol.Keeps vol') (he : vol.entry place = some e) :
    vol'.entry place = some e := by
  rw [h place (by rw [he]; simp), he]

/-- Putting something where nothing was keeps the rest. -/
theorem keeps_put (hput : vol.put place name e = some vol')
    (hnone : vol.entry (place ++ [name]) = none) : vol.Keeps vol' := by
  intro other hheld
  rw [(put_eq_some_iff.mp hput).2.2, Function.update_of_ne]
  rintro rfl
  exact hheld hnone

/-- A component leads to the same directory later. -/
theorem Keeps.enter_eq (h : vol.Keeps vol') (he : vol.enter place hop = some target) :
    vol'.enter place hop = some target := by
  cases hop with
  | up => exact he
  | into name =>
    unfold enter at he ⊢
    simp only at he ⊢
    split at he
    · rename_i hentry
      rw [h.entry_eq hentry]
      exact he
    · rename_i hentry
      rw [h.entry_eq hentry]
      split at he
      · rename_i hdir
        simp only
        rw [if_pos (h.entry_eq hdir)]
        exact he
      · contradiction
    · contradiction
    · contradiction

/-- A path that is followed leads to the same directory later. -/
theorem Keeps.follow_eq (h : vol.Keeps vol') (he : vol.follow place hops = some target) :
    vol'.follow place hops = some target := by
  induction hops generalizing place with
  | nil => exact he
  | cons hop hops ih =>
    rw [follow, List.foldlM_cons] at he ⊢
    obtain ⟨next, hnext, hrest⟩ := Option.bind_eq_some_iff.mp he
    rw [h.enter_eq hnext]
    exact ih hrest

/-- The directory and the name that a path ends on. -/
theorem locate_eq_some_iff : vol.locate place hops = some (dir, name) ↔
    ∃ front, hops = front ++ [.into name] ∧ vol.follow place front = some dir := by
  unfold locate
  constructor
  · intro h
    split at h
    · rename_i last hlast
      obtain ⟨found, hfound, hpair⟩ := Option.map_eq_some_iff.mp h
      obtain ⟨front, rfl⟩ := List.getLast?_eq_some_iff.mp hlast
      cases hpair
      rw [List.dropLast_concat] at hfound
      exact ⟨front, rfl, hfound⟩
    · contradiction
    · contradiction
  · rintro ⟨front, rfl, hfollow⟩
    simp [hfollow]

/-- What is found is a file. -/
theorem findFile_eq_some_iff : vol.findFile place hops = some e ↔
    ∃ dir name writable, vol.locate place hops = some (dir, name) ∧ e = .file writable ∧
      vol.entry (dir ++ [name]) = some (.file writable) := by
  unfold findFile
  constructor
  · intro h
    split at h
    · split at h
      · exact ⟨_, _, _, ‹_›, (Option.some.inj h).symm, ‹_›⟩
      · contradiction
      · contradiction
      · contradiction
    · contradiction
  · rintro ⟨dir, name, writable, hlocate, rfl, hentry⟩
    rw [hlocate]
    simp only [hentry]

/-- Making a directory takes nothing away. -/
theorem keeps_makeDir (hmake : vol.makeDir place hop = some (vol', target)) : vol.Keeps vol' := by
  cases hop with
  | up =>
    simp only [makeDir, Option.some.injEq, Prod.mk.injEq] at hmake
    exact hmake.1 ▸ Keeps.refl vol
  | into name =>
    simp only [makeDir] at hmake
    split at hmake
    · rename_i hnone
      obtain ⟨made, hput, hpair⟩ := Option.map_eq_some_iff.mp hmake
      cases hpair
      exact keeps_put hput hnone
    · obtain ⟨next, -, hpair⟩ := Option.map_eq_some_iff.mp hmake
      cases hpair
      exact Keeps.refl vol

/-- Making directories takes nothing away. -/
theorem keeps_createDirs (hmake : vol.createDirs place hops = some (vol', target)) :
    vol.Keeps vol' := by
  induction hops generalizing vol place with
  | nil =>
    simp only [createDirs, Option.some.injEq, Prod.mk.injEq] at hmake
    exact hmake.1 ▸ Keeps.refl vol
  | cons hop hops ih =>
    rw [createDirs] at hmake
    split at hmake
    · contradiction
    · rename_i made next hfirst
      exact (keeps_makeDir hfirst).trans (ih hmake)

/-- Opening a file leaves a file that may be written, where nothing or such a file was. -/
theorem openWrite_eq_some (h : vol.openWrite place hops = some vol') :
    ∃ dir name, vol.locate place hops = some (dir, name) ∧
      (vol.entry (dir ++ [name]) = none ∨ vol.entry (dir ++ [name]) = some (.file true)) ∧
      vol'.entry = Function.update vol.entry (dir ++ [name]) (some (.file true)) := by
  unfold openWrite at h
  split at h
  · rename_i dir name hlocate
    split at h
    · rename_i hnone
      exact ⟨dir, name, hlocate, Or.inl hnone, (put_eq_some_iff.mp h).2.2⟩
    · rename_i hfile
      obtain rfl := Option.some.inj h
      exact ⟨dir, name, hlocate, Or.inr hfile, by rw [← hfile, Function.update_eq_self]⟩
    · contradiction
    · contradiction
    · contradiction
  · contradiction

/-- Opening a file changes only its own place, and only if nothing was there. -/
theorem keeps_openWrite (hopen : vol.openWrite place hops = some vol') : vol.Keeps vol' := by
  obtain ⟨dir, name, -, hfree, hentry⟩ := openWrite_eq_some hopen
  intro x hheld
  rw [hentry]
  by_cases hx : x = dir ++ [name]
  · rw [hx, Function.update_self, hfree.resolve_left (hx ▸ hheld)]
  · rw [Function.update_of_ne hx]

/-- Components are followed one after the other. -/
theorem follow_append (place : List N) (hops hops' : List (Hop N)) :
    vol.follow place (hops ++ hops') =
      (vol.follow place hops).bind fun next => vol.follow next hops' := by
  rw [follow, List.foldlM_append]
  rfl

/-- A component is followed to a directory. -/
theorem enter_of_dir (h : vol.entry (hop.after place) = some .dir) :
    vol.enter place hop = some (hop.after place) := by
  cases hop with
  | up => rfl
  | into name =>
    rw [Hop.after] at h
    simp only [enter, h, Hop.after]

/-- What a component is followed to is a directory. -/
theorem dir_of_enter (hplace : vol.entry place = some .dir)
    (h : vol.enter place hop = some target) : vol.entry target = some .dir := by
  cases hop with
  | up => exact Option.some.inj h ▸ dir_dropLast hplace
  | into name =>
    simp only [enter] at h
    split at h
    · exact Option.some.inj h ▸ ‹_›
    · split at h
      · exact Option.some.inj h ▸ ‹_›
      · contradiction
    · contradiction
    · contradiction

/-- Directories are followed. -/
theorem follow_of_dirs (h : ∀ x ∈ trail place hops, vol.entry x = some .dir) :
    vol.follow place hops = some (arrive place hops) := by
  induction hops generalizing place with
  | nil => rfl
  | cons hop hops ih =>
    obtain ⟨hfirst, hrest⟩ := List.forall_mem_cons.mp h
    rw [follow, List.foldlM_cons, enter_of_dir hfirst]
    exact ih hrest

/-- What is followed is a directory. -/
theorem dir_of_follow (hplace : vol.entry place = some .dir)
    (h : vol.follow place hops = some target) : vol.entry target = some .dir := by
  induction hops generalizing place with
  | nil => exact Option.some.inj h ▸ hplace
  | cons hop hops ih =>
    rw [follow, List.foldlM_cons] at h
    obtain ⟨next, hnext, hrest⟩ := Option.bind_eq_some_iff.mp h
    exact ih (dir_of_enter hplace hnext) hrest

/-- What is followed is no file. -/
theorem findFile_eq_none_of_follow (h : vol.follow place hops = some target) :
    vol.findFile place hops = none := by
  by_contra hne
  obtain ⟨e, he⟩ := Option.ne_none_iff_exists'.mp hne
  obtain ⟨dir, name, writable, hlocate, -, hentry⟩ := findFile_eq_some_iff.mp he
  obtain ⟨front, rfl, hfront⟩ := locate_eq_some_iff.mp hlocate
  rw [follow_append, hfront, Option.bind_some, follow, List.foldlM_cons] at h
  simp [enter, hentry] at h

/-- Nothing is made where a path can be followed. -/
theorem createDirs_of_follow (h : vol.follow place hops = some target) :
    vol.createDirs place hops = some (vol, target) := by
  induction hops generalizing place with
  | nil => exact congrArg (fun p => some (vol, p)) (Option.some.inj h)
  | cons hop hops ih =>
    rw [follow, List.foldlM_cons] at h
    obtain ⟨next, hnext, hrest⟩ := Option.bind_eq_some_iff.mp h
    have hmake : vol.makeDir place hop = some (vol, next) := by
      cases hop with
      | up =>
        cases hnext
        rfl
      | into name =>
        have hheld : vol.entry (place ++ [name]) ≠ none := by
          intro hnone
          simp [enter, hnone] at hnext
        rw [makeDir]
        split
        · contradiction
        · rw [hnext, Option.map_some]
    rw [createDirs, hmake]
    exact ih hrest

/-- Directories are made one after the other. -/
theorem createDirs_append (place : List N) (hops hops' : List (Hop N)) :
    vol.createDirs place (hops ++ hops') =
      (vol.createDirs place hops).bind fun made => made.1.createDirs made.2 hops' := by
  induction hops generalizing vol place with
  | nil => rfl
  | cons hop hops ih =>
    rw [List.cons_append, createDirs, createDirs]
    cases vol.makeDir place hop with
    | none => rfl
    | some made => exact ih made.2

/-- Where nothing is in the way, a component is followed to a directory, which is made if it is
missing. -/
theorem makeDir_of_free (hplace : vol.entry place = some .dir)
    (hfree : vol.entry (hop.after place) = none ∨ vol.entry (hop.after place) = some .dir) :
    ∃ made, vol.makeDir place hop = some (made, hop.after place) ∧
      made.entry (hop.after place) = some .dir ∧
      ∀ x, x ≠ hop.after place → made.entry x = vol.entry x := by
  cases hop with
  | up => exact ⟨vol, rfl, dir_dropLast hplace, fun _ _ => rfl⟩
  | into name =>
    rw [Hop.after] at hfree ⊢
    rcases hfree with hnone | hdir
    · obtain ⟨made, hput, hentry⟩ :=
        exists_put .dir hplace (show vol.entry (place ++ [name]) ≠ _ by rw [hnone]; simp)
      refine ⟨made, by simp only [makeDir, hnone, hput, Option.map_some], ?_, fun x hx => ?_⟩
      · rw [hentry, Function.update_self]
      · rw [hentry, Function.update_of_ne hx]
    · exact ⟨vol, by simp only [makeDir, hdir, enter, Option.map_some], hdir, fun _ _ => rfl⟩

/-- Where nothing is in the way, the directories that a path leads through are made and nothing
else changes. -/
theorem createDirs_of_free (hplace : vol.entry place = some .dir)
    (hfree : ∀ x ∈ trail place hops, vol.entry x = none ∨ vol.entry x = some .dir) :
    ∃ made, vol.createDirs place hops = some (made, arrive place hops) ∧
      (∀ x ∈ trail place hops, made.entry x = some .dir) ∧
      ∀ x, x ∉ trail place hops → made.entry x = vol.entry x := by
  induction hops generalizing vol place with
  | nil => exact ⟨vol, rfl, fun x hx => absurd hx List.not_mem_nil, fun _ _ => rfl⟩
  | cons hop hops ih =>
    obtain ⟨hfirst, hrest⟩ := List.forall_mem_cons.mp hfree
    obtain ⟨first, hmake, hdir, hsame⟩ := makeDir_of_free hplace hfirst
    obtain ⟨made, hmade, hdirs, hothers⟩ := ih hdir fun x hx => by
      by_cases hx' : x = hop.after place
      · exact Or.inr (hx' ▸ hdir)
      · rw [hsame x hx']
        exact hrest x hx
    refine ⟨made, by rw [createDirs, hmake]; exact hmade, ?_, fun x hx => ?_⟩
    · refine List.forall_mem_cons.mpr ⟨?_, hdirs⟩
      exact (keeps_createDirs hmade).entry_eq hdir
    · rw [trail, List.mem_cons, not_or] at hx
      rw [hothers x hx.2, hsame x hx.1]

/-- Opening a file that may be written, or that is missing, changes nothing else. -/
theorem openWrite_of_locate (hlocate : vol.locate place hops = some (dir, name))
    (hdir : vol.entry dir = some .dir)
    (hfree : vol.entry (dir ++ [name]) = none ∨ vol.entry (dir ++ [name]) = some (.file true)) :
    ∃ opened, vol.openWrite place hops = some opened ∧
      opened.entry (dir ++ [name]) = some (.file true) ∧
      ∀ x, x ≠ dir ++ [name] → opened.entry x = vol.entry x := by
  rcases hfree with hnone | hfile
  · obtain ⟨opened, hput, hentry⟩ :=
      exists_put (.file true) hdir (show vol.entry (dir ++ [name]) ≠ _ by rw [hnone]; simp)
    refine ⟨opened, by simp only [openWrite, hlocate, hnone, hput], ?_, fun x hx => ?_⟩
    · rw [hentry, Function.update_self]
    · rw [hentry, Function.update_of_ne hx]
  · exact ⟨vol, by simp only [openWrite, hlocate, hfile], hfile, fun _ _ => rfl⟩

end Volume

end Bqti.Core
