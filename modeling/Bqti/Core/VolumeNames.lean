import Bqti.Core.Volume

/-!
# Paths of names on a volume

A path that only goes on to names leads to the place of these names, as far as there are no links on
the way. On a volume without links this is where every such path leads.
-/

namespace Bqti.Core.Volume

variable {N : Type*} [DecidableEq N] {vol vol' : Volume N} {place target : List N} {name : N}
  {e : Entry N}

/-! ## Finding what is held -/

/-- What is held somewhere is found along its names. -/
theorem follow_intoAll {names : List N} (h : vol.entry (place ++ names) = some .dir) :
    vol.follow place (intoAll names) = some (place ++ names) := by
  rw [← arrive_intoAll place names]
  refine follow_of_dirs fun x hx => ?_
  obtain ⟨front, -, ⟨rest, rfl⟩, rfl⟩ := mem_trail_intoAll.mp hx
  rw [← List.append_assoc] at h
  rcases eq_or_ne rest [] with rfl | hrest
  · rwa [List.append_nil] at h
  · exact dir_of_append (by rw [h]; simp) hrest

/-- No link is met along names from a place. -/
def NoLink (vol : Volume N) (place names : List N) : Prop :=
  ∀ x ∈ trail place (intoAll names), ∀ link, vol.entry x ≠ some (.link link)

omit [DecidableEq N] in
/-- A way meets no link if its first name is none and the rest meets none. -/
theorem noLink_cons {names : List N} : vol.NoLink place (name :: names) ↔
    (∀ link, vol.entry (place ++ [name]) ≠ some (.link link)) ∧
      vol.NoLink (place ++ [name]) names := List.forall_mem_cons

/-- Without links, names are only followed downwards. -/
theorem NoLink.follow_eq {names : List N} (h : vol.NoLink place names)
    (hfollow : vol.follow place (intoAll names) = some target) : target = place ++ names := by
  induction names generalizing place with
  | nil =>
    rw [List.append_nil]
    exact (Option.some.inj hfollow).symm
  | cons name names ih =>
    obtain ⟨hfirst, hrest⟩ := noLink_cons.mp h
    rw [intoAll, List.map_cons, follow, List.foldlM_cons] at hfollow
    obtain ⟨next, hnext, hfollow⟩ := Option.bind_eq_some_iff.mp hfollow
    simp only [enter] at hnext
    split at hnext
    · cases hnext
      rw [ih hrest hfollow, List.append_assoc, List.singleton_append]
    · exact absurd ‹_› (hfirst _)
    · contradiction
    · contradiction

/-- Names lead to a place: through links or not as far as some directory, and by themselves from
there on. -/
def Leads (vol : Volume N) (names place : List N) : Prop :=
  ∃ front back base, names = front ++ back ∧ place = base ++ back ∧
    vol.follow [] (intoAll front) = some base

/-- Names lead to their own place. -/
theorem Leads.refl (vol : Volume N) (names : List N) : vol.Leads names names :=
  ⟨[], names, [], rfl, rfl, rfl⟩

/-- More names lead further down from the place. -/
theorem Leads.append {names : List N} (h : vol.Leads names place) (rest : List N) :
    vol.Leads (names ++ rest) (place ++ rest) := by
  obtain ⟨front, back, base, rfl, rfl, hfollow⟩ := h
  exact ⟨front, back ++ rest, base, List.append_assoc .., List.append_assoc .., hfollow⟩

/-- Names lead to the same place as long as nothing is taken away. -/
theorem Keeps.leads (hkeeps : vol.Keeps vol') {names : List N} (h : vol.Leads names place) :
    vol'.Leads names place := by
  obtain ⟨front, back, base, hnames, hplace, hfollow⟩ := h
  exact ⟨front, back, base, hnames, hplace, hkeeps.follow_eq hfollow⟩

/-- The directory that names lead to is the one at their place. -/
theorem Leads.follow_eq {names : List N} (h : vol.Leads names place) :
    vol.follow [] (intoAll names) = vol.follow [] (intoAll place) := by
  obtain ⟨front, back, base, rfl, rfl, hfollow⟩ := h
  have hbase : vol.follow [] (intoAll base) = some base :=
    follow_intoAll (dir_of_follow vol.root hfollow)
  rw [intoAll_append, intoAll_append, follow_append, follow_append, hfollow, hbase]

end Bqti.Core.Volume
