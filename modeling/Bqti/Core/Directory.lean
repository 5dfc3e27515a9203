import Mathlib.Data.List.Basic
import Mathlib.Data.List.Nodup
import Mathlib.Data.List.Perm.Basic
import Mathlib.Tactic.Common

/-!
# Directory trees and the order of their entries

A directory is read as a list of entries, and nothing fixes the order. Two readings of one tree
differ by permutations of the entries of its directories. Walking a tree lists its files with
their paths; the list is the same for all readings precisely when the blocks of any two entries
of one directory commute as words.
-/

namespace Bqti.Core

variable {N M α : Type*} {shown : N → M}

/-- A tree as it is read: a file with its contents, a directory with its entries, or something
that is neither. -/
inductive Node (N α : Type*)
  | file (content : α)
  | dir (entries : List (N × Node N α))
  | other

/-- Put a name before the path of every file. -/
def under (name : N) (files : List (List N × α)) : List (List N × α) :=
  files.map fun f => (name :: f.1, f.2)

namespace Node

mutual

/-- The files of a tree with the shown names of their paths, in the order in which they are
read. -/
def walk (shown : N → M) : Node N α → List (List M × α)
  | .file content => [([], content)]
  | .dir entries => walkAll shown entries
  | .other => []

/-- The files below the entries of a directory. -/
def walkAll (shown : N → M) : List (N × Node N α) → List (List M × α)
  | [] => []
  | (name, node) :: entries => under (shown name) (walk shown node) ++ walkAll shown entries

end

mutual

/-- No directory has two entries whose names are shown alike. -/
def Distinct (shown : N → M) : Node N α → Prop
  | .file _ => True
  | .dir entries => DistinctAll shown entries
  | .other => True

/-- The names of the entries of a directory are shown differently. -/
def DistinctAll (shown : N → M) : List (N × Node N α) → Prop
  | [] => True
  | (name, node) :: entries =>
      Distinct shown node ∧ (∀ e ∈ entries, shown e.1 ≠ shown name) ∧ DistinctAll shown entries

end

mutual

/-- Another reading of a tree. -/
inductive Reordered : Node N α → Node N α → Prop
  | file (content : α) : Reordered (.file content) (.file content)
  | dir {entries entries' : List (N × Node N α)} (h : ReorderedAll entries entries') :
      Reordered (.dir entries) (.dir entries')
  | other : Reordered .other .other

/-- Another reading of the entries of a directory. -/
inductive ReorderedAll : List (N × Node N α) → List (N × Node N α) → Prop
  | nil : ReorderedAll [] []
  | cons {name : N} {node node' : Node N α} {entries entries' : List (N × Node N α)}
      (hnode : Reordered node node') (hentries : ReorderedAll entries entries') :
      ReorderedAll ((name, node) :: entries) ((name, node') :: entries')
  | swap (a b : N × Node N α) (entries : List (N × Node N α)) :
      ReorderedAll (a :: b :: entries) (b :: a :: entries)
  | trans {entries entries' entries'' : List (N × Node N α)}
      (h : ReorderedAll entries entries') (h' : ReorderedAll entries' entries'') :
      ReorderedAll entries entries''

end

/-- The files below an entry of a directory, seen from the directory. -/
def block (shown : N → M) (e : N × Node N α) : List (List M × α) :=
  under (shown e.1) (walk shown e.2)

/-- The blocks of two entries commute. -/
def BlocksCommute (shown : N → M) (a b : N × Node N α) : Prop :=
  block shown a ++ block shown b = block shown b ++ block shown a

mutual

/-- In every directory the blocks of any two entries commute. -/
def Commutes (shown : N → M) : Node N α → Prop
  | .file _ => True
  | .dir entries => CommutesAll shown entries
  | .other => True

/-- The blocks of any two entries of the directory commute, and those below them. -/
def CommutesAll (shown : N → M) : List (N × Node N α) → Prop
  | [] => True
  | (name, node) :: entries =>
      Commutes shown node ∧ (∀ e ∈ entries, BlocksCommute shown (name, node) e) ∧
        CommutesAll shown entries

end

/-! ## Readings -/

mutual

/-- A tree may be read as it is. -/
theorem Reordered.refl : ∀ node : Node N α, Reordered node node
  | .file content => .file content
  | .dir entries => .dir (ReorderedAll.refl entries)
  | .other => .other

/-- Entries are a reordering of themselves. -/
theorem ReorderedAll.refl : ∀ entries : List (N × Node N α), ReorderedAll entries entries
  | [] => .nil
  | (_, node) :: entries => .cons (Reordered.refl node) (ReorderedAll.refl entries)

end

/-- Every permutation of the entries is a reading. -/
theorem ReorderedAll.of_perm {entries entries' : List (N × Node N α)}
    (h : entries.Perm entries') : ReorderedAll entries entries' := by
  induction h with
  | nil => exact .nil
  | cons e _ ih => exact .cons (Reordered.refl e.2) ih
  | swap a b entries => exact .swap b a entries
  | trans _ _ ih ih' => exact ih.trans ih'

mutual

/-- All readings list the same files. -/
theorem Reordered.walk_perm : ∀ {node node' : Node N α}, Reordered node node' →
    (walk shown node).Perm (walk shown node')
  | _, _, .file _ => List.Perm.refl _
  | _, _, .dir h => by
    rw [walk, walk]
    exact h.walkAll_perm
  | _, _, .other => List.Perm.refl _

/-- Reordered entries have the same files. -/
theorem ReorderedAll.walkAll_perm : ∀ {entries entries' : List (N × Node N α)},
    ReorderedAll entries entries' → (walkAll shown entries).Perm (walkAll shown entries')
  | _, _, .nil => List.Perm.refl _
  | _, _, .cons hnode hentries => by
    rw [walkAll, walkAll]
    exact (hnode.walk_perm.map _).append hentries.walkAll_perm
  | _, _, .swap a b entries => by
    rw [walkAll, walkAll, walkAll, walkAll, ← List.append_assoc, ← List.append_assoc]
    exact List.perm_append_comm.append_right _
  | _, _, .trans h h' => h.walkAll_perm.trans h'.walkAll_perm

end

/-! ## Commuting blocks -/

/-- Paths below one name are different if the rest is. -/
theorem under_injective (name : M) : Function.Injective (@under M α name) := by
  apply List.map_injective_iff.mpr
  intro f g h
  simp only [Prod.mk.injEq, List.cons.injEq, true_and] at h
  exact Prod.ext h.1 h.2

mutual

/-- Where all blocks commute, every reading lists the files in the same order. -/
theorem Reordered.walk_eq : ∀ {node node' : Node N α}, Reordered node node' →
    Commutes shown node → walk shown node' = walk shown node ∧ Commutes shown node'
  | _, _, .file _, hc => ⟨rfl, hc⟩
  | _, _, .dir h, hc => by
    rw [walk, walk, Commutes]
    rw [Commutes] at hc
    obtain ⟨hwalk, hc', -⟩ := h.walkAll_eq hc
    exact ⟨hwalk, hc'⟩
  | _, _, .other, hc => ⟨rfl, hc⟩

/-- The same for the entries of a directory; a block that commutes with all of them still does. -/
theorem ReorderedAll.walkAll_eq : ∀ {entries entries' : List (N × Node N α)},
    ReorderedAll entries entries' → CommutesAll shown entries →
    walkAll shown entries' = walkAll shown entries ∧ CommutesAll shown entries' ∧
      ∀ d, (∀ e ∈ entries, BlocksCommute shown d e) → ∀ e ∈ entries', BlocksCommute shown d e
  | _, _, .nil, hc => ⟨rfl, hc, fun _ h => h⟩
  | _, _, @ReorderedAll.cons _ _ name node node' entries entries' hnode hentries, hc => by
    rw [CommutesAll] at hc ⊢
    obtain ⟨hfirst, hblocks, hrest⟩ := hc
    obtain ⟨hwalk, hfirst'⟩ := hnode.walk_eq hfirst
    obtain ⟨hwalks, hrest', hkeep⟩ := hentries.walkAll_eq hrest
    refine ⟨by rw [walkAll, walkAll, hwalk, hwalks], ⟨hfirst', ?_, hrest'⟩, fun d h => ?_⟩
    · intro e he
      rw [BlocksCommute, block, hwalk]
      exact hkeep (name, node) hblocks e he
    · obtain ⟨hd, h⟩ := List.forall_mem_cons.mp h
      refine List.forall_mem_cons.mpr ⟨?_, hkeep d h⟩
      rw [BlocksCommute, block, block, hwalk]
      exact hd
  | _, _, .swap a b entries, hc => by
    simp only [CommutesAll, List.forall_mem_cons] at hc ⊢
    obtain ⟨ha, ⟨hab, haes⟩, hb, hbes, hes⟩ := hc
    have hba : BlocksCommute shown b a := hab.symm
    refine ⟨?_, ⟨hb, ⟨hba, hbes⟩, ha, haes, hes⟩, fun d ⟨hda, hdb, hdes⟩ => ⟨hdb, hda, hdes⟩⟩
    simp only [walkAll, ← List.append_assoc]
    exact congrArg (· ++ walkAll shown entries) hba
  | _, _, .trans h h', hc => by
    obtain ⟨hwalk, hc', hkeep⟩ := h.walkAll_eq hc
    obtain ⟨hwalk', hc'', hkeep'⟩ := h'.walkAll_eq hc'
    exact ⟨hwalk'.trans hwalk, hc'', fun d hd => hkeep' d (hkeep d hd)⟩

end

mutual

/-- A tree whose readings all list the files in one order has commuting blocks. -/
theorem commutes_of_walk_eq : ∀ node : Node N α,
    (∀ node', Reordered node node' → walk shown node' = walk shown node) → Commutes shown node
  | .file _, _ => trivial
  | .dir entries, h => by
    refine commutesAll_of_walkAll_eq entries fun entries' hentries => ?_
    have hwalk := h _ (.dir hentries)
    rwa [walk, walk] at hwalk
  | .other, _ => trivial

/-- Entries whose files come in one order only commute. -/
theorem commutesAll_of_walkAll_eq : ∀ entries : List (N × Node N α),
    (∀ entries', ReorderedAll entries entries' →
      walkAll shown entries' = walkAll shown entries) → CommutesAll shown entries
  | [], _ => trivial
  | (name, node) :: entries, h => by
    refine ⟨commutes_of_walk_eq node fun node' hnode => ?_, fun e he => ?_,
      commutesAll_of_walkAll_eq entries fun entries' hentries => ?_⟩
    · -- only this entry is read differently
      have hwalk := h _ (.cons hnode (ReorderedAll.refl entries))
      rw [walkAll, walkAll] at hwalk
      exact under_injective (shown name) (List.append_cancel_right hwalk)
    · -- the two entries are read first, in both orders
      obtain ⟨before, after, rfl⟩ := List.append_of_mem he
      have hfront : ((name, node) :: (before ++ e :: after)).Perm
          ((name, node) :: e :: (before ++ after)) := List.perm_middle.cons _
      have hboth := h _ (.of_perm hfront)
      have hswap := h _ ((ReorderedAll.of_perm hfront).trans (.swap _ _ _))
      rw [← hboth] at hswap
      simp only [walkAll, ← List.append_assoc] at hswap
      exact (List.append_cancel_right hswap).symm
    · have hwalk := h _ (.cons (Reordered.refl node) hentries)
      rw [walkAll, walkAll] at hwalk
      exact List.append_cancel_left hwalk

end

/-- All readings of a tree list the files in one order precisely when in every directory the blocks
of any two entries commute. -/
theorem walk_eq_iff_commutes {node : Node N α} :
    (∀ node', Reordered node node' → walk shown node' = walk shown node) ↔
      Commutes shown node :=
  ⟨commutes_of_walk_eq node, fun hc _ h => (h.walk_eq hc).1⟩

/-! ## Trees with different names -/

/-- A directory lists nothing exactly when none of its entries does. -/
theorem walkAll_eq_nil_iff {entries : List (N × Node N α)} :
    walkAll shown entries = [] ↔ ∀ e ∈ entries, walk shown e.2 = [] := by
  induction entries with
  | nil => simp [walkAll]
  | cons e entries ih => simp [walkAll, ih, under]

/-- Two blocks under different names commute only if one of them is empty. -/
theorem walk_eq_nil_of_blocksCommute {a b : N × Node N α} (hne : shown a.1 ≠ shown b.1)
    (h : BlocksCommute shown a b) : walk shown a.2 = [] ∨ walk shown b.2 = [] := by
  rw [BlocksCommute, block, block] at h
  cases ha : walk shown a.2 with
  | nil => exact Or.inl rfl
  | cons f files =>
    cases hb : walk shown b.2 with
    | nil => exact Or.inr rfl
    | cons g files' =>
      rw [ha, hb] at h
      simp only [under, List.map_cons, List.cons_append, List.cons.injEq, Prod.mk.injEq] at h
      exact absurd h.1.1.1 hne

mutual

/-- With different names in every directory, blocks commute only in a tree of one file at most. -/
theorem commutes_iff_of_distinct : ∀ {node : Node N α}, Distinct shown node →
    (Commutes shown node ↔ (walk shown node).length ≤ 1)
  | .file _, _ => iff_of_true trivial (Nat.le_refl 1)
  | .dir entries, h => by
    rw [Commutes, walk]
    exact commutesAll_iff_of_distinct h
  | .other, _ => iff_of_true trivial (Nat.zero_le _)

/-- Distinct entries commute only if there is at most one file. -/
theorem commutesAll_iff_of_distinct : ∀ {entries : List (N × Node N α)},
    DistinctAll shown entries →
    (CommutesAll shown entries ↔ (walkAll shown entries).length ≤ 1)
  | [], _ => iff_of_true trivial (Nat.zero_le _)
  | (name, node) :: entries, h => by
    obtain ⟨hnode, hnames, hentries⟩ := h
    have hlength : (walkAll shown ((name, node) :: entries)).length =
        (walk shown node).length + (walkAll shown entries).length := by
      simp only [walkAll, List.length_append, under, List.length_map]
    rw [CommutesAll, commutes_iff_of_distinct hnode, commutesAll_iff_of_distinct hentries, hlength]
    constructor
    · rintro ⟨hfirst, hblocks, hrest⟩
      cases hwalk : walk shown node with
      | nil => simpa using hrest
      | cons f files =>
        have hnone : walkAll shown entries = [] := by
          refine walkAll_eq_nil_iff.mpr fun e he => ?_
          have hempty := walk_eq_nil_of_blocksCommute (hnames e he).symm (hblocks e he)
          exact hempty.resolve_left (by rw [hwalk]; simp)
        rw [hnone]
        rwa [hwalk] at hfirst
    · intro hle
      refine ⟨by omega, fun e he => ?_, by omega⟩
      have hsplit : walk shown node = [] ∨ walkAll shown entries = [] := by
        rcases Nat.eq_zero_or_pos (walk shown node).length with hzero | hpos
        · exact Or.inl (List.eq_nil_of_length_eq_zero hzero)
        · exact Or.inr (List.eq_nil_of_length_eq_zero (by omega))
      rw [BlocksCommute, block, block]
      rcases hsplit with hempty | hempty
      · simp [hempty, under]
      · have hblock := walkAll_eq_nil_iff.mp hempty e he
        simp [hblock, under]

end

/-! ## Looking up a path -/

mutual

/-- The files under the names that they are shown with. -/
theorem walk_eq_map : ∀ node : Node N α,
    walk shown node = (walk id node).map fun f => (f.1.map shown, f.2)
  | .file _ => rfl
  | .dir entries => walkAll_eq_map entries
  | .other => rfl

/-- The names that are shown are those of the files. -/
theorem walkAll_eq_map : ∀ entries : List (N × Node N α),
    walkAll shown entries = (walkAll id entries).map fun f => (f.1.map shown, f.2)
  | [] => rfl
  | (name, node) :: entries => by
    simp only [walkAll, walk_eq_map node, walkAll_eq_map entries, under, List.map_append,
      List.map_map, Function.comp_def, List.map_cons, id]

end

/-- A path that is listed begins with the name of an entry. -/
theorem exists_entry_of_mem_walkAll {entries : List (N × Node N α)} {f : List N × α}
    (hf : f ∈ walkAll id entries) : ∃ e ∈ entries, ∃ rest, f.1 = e.1 :: rest := by
  induction entries with
  | nil => exact absurd hf List.not_mem_nil
  | cons e entries ih =>
    rw [walkAll, List.mem_append] at hf
    rcases hf with hf | hf
    · obtain ⟨g, -, rfl⟩ := List.mem_map.mp hf
      exact ⟨e, List.mem_cons_self, g.1, rfl⟩
    · obtain ⟨e', hmem, hrest⟩ := ih hf
      exact ⟨e', List.mem_cons_of_mem e hmem, hrest⟩

mutual

/-- With different names in every directory, no path is listed twice. -/
theorem nodup_walk : ∀ {node : Node N α}, Distinct id node →
    ((walk id node).map Prod.fst).Nodup
  | .file _, _ => by simp [walk]
  | .dir entries, h => by
    rw [walk]
    exact nodup_walkAll h
  | .other, _ => by simp [walk]

/-- Distinct entries have files under different paths. -/
theorem nodup_walkAll : ∀ {entries : List (N × Node N α)}, DistinctAll id entries →
    ((walkAll id entries).map Prod.fst).Nodup
  | [], _ => by simp [walkAll]
  | (name, node) :: entries, ⟨hnode, hnames, hentries⟩ => by
    rw [walkAll, List.map_append, List.nodup_append]
    refine ⟨?_, nodup_walkAll hentries, ?_⟩
    · have hpaths : (under (id name) (walk id node)).map Prod.fst =
          ((walk id node).map Prod.fst).map (name :: ·) := by simp [under, Function.comp_def]
      rw [hpaths]
      exact List.Nodup.map List.cons_injective (nodup_walk hnode)
    · intro path hpath path' hpath' he
      obtain ⟨f, hf, rfl⟩ := List.mem_map.mp hpath
      obtain ⟨g, -, rfl⟩ := List.mem_map.mp hf
      obtain ⟨f', hf', rfl⟩ := List.mem_map.mp hpath'
      obtain ⟨e, hmem, rest, hrest⟩ := exists_entry_of_mem_walkAll hf'
      rw [hrest] at he
      exact hnames e hmem (List.cons.inj he).1.symm

end

section Read

variable [DecidableEq N]

mutual

/-- The contents of the file at a path. -/
def read : Node N α → List N → Option α
  | .file content, [] => some content
  | .file _, _ :: _ => none
  | .dir _, [] => none
  | .dir entries, name :: path => readAll entries name path
  | .other, _ => none

/-- The contents of the file at a path below the entry of a name. -/
def readAll : List (N × Node N α) → N → List N → Option α
  | [], _, _ => none
  | (name, node) :: entries, wanted, path =>
      if name = wanted then read node path else readAll entries wanted path

end

/-- A name that no entry has is not found. -/
theorem readAll_eq_none {entries : List (N × Node N α)} {name : N}
    (h : ∀ e ∈ entries, e.1 ≠ name) (path : List N) : readAll entries name path = none := by
  induction entries with
  | nil => rfl
  | cons e entries ih =>
    obtain ⟨hne, h⟩ := List.forall_mem_cons.mp h
    rw [readAll, if_neg hne, ih h]

mutual

/-- The files that are listed are found at their paths. -/
theorem read_of_mem_walk : ∀ {node : Node N α}, Distinct id node → ∀ {f : List N × α},
    f ∈ walk id node → read node f.1 = some f.2
  | .file _, _, f, hf => by
    rw [walk, List.mem_singleton] at hf
    rw [hf, read]
  | .dir entries, h, f, hf => by
    obtain ⟨name, path, hpath, hread⟩ := readAll_of_mem_walkAll h hf
    rw [hpath, read, hread]
  | .other, _, f, hf => absurd hf List.not_mem_nil

/-- A file of distinct entries is read under its path. -/
theorem readAll_of_mem_walkAll : ∀ {entries : List (N × Node N α)}, DistinctAll id entries →
    ∀ {f : List N × α}, f ∈ walkAll id entries →
    ∃ name path, f.1 = name :: path ∧ readAll entries name path = some f.2
  | [], _, f, hf => absurd hf List.not_mem_nil
  | (name, node) :: entries, ⟨hnode, hnames, hentries⟩, f, hf => by
    rw [walkAll, List.mem_append] at hf
    rcases hf with hf | hf
    · obtain ⟨g, hg, rfl⟩ := List.mem_map.mp hf
      refine ⟨name, g.1, rfl, ?_⟩
      rw [readAll, if_pos rfl]
      exact read_of_mem_walk hnode hg
    · obtain ⟨other, path, hpath, hread⟩ := readAll_of_mem_walkAll hentries hf
      refine ⟨other, path, hpath, ?_⟩
      rw [readAll, if_neg, hread]
      rintro rfl
      have hnone : readAll entries name path = none := readAll_eq_none hnames path
      rw [hnone] at hread
      cases hread

end

mutual

/-- A file that is found at a path is listed. -/
theorem mem_walk_of_read : ∀ {node : Node N α} {path : List N} {content : α},
    read node path = some content → (path, content) ∈ walk id node
  | .file content', [], content, h => by
    rw [read] at h
    obtain rfl := Option.some.inj h
    rw [walk, List.mem_singleton]
  | .file _, _ :: _, _, h => by
    rw [read] at h
    cases h
  | .dir _, [], _, h => by
    rw [read] at h
    cases h
  | .dir entries, name :: path, content, h => by
    rw [read] at h
    rw [walk]
    exact mem_walkAll_of_readAll h
  | .other, _, _, h => by
    rw [read] at h
    cases h

/-- What is read under a path is a file with this path. -/
theorem mem_walkAll_of_readAll : ∀ {entries : List (N × Node N α)} {name : N} {path : List N}
    {content : α}, readAll entries name path = some content →
    (name :: path, content) ∈ walkAll id entries
  | [], _, _, _, h => by
    rw [readAll] at h
    cases h
  | (first, node) :: entries, name, path, content, h => by
    rw [readAll] at h
    rw [walkAll, List.mem_append]
    split at h
    · rename_i hname
      subst hname
      exact Or.inl (List.mem_map.mpr ⟨(path, content), mem_walk_of_read h, rfl⟩)
    · exact Or.inr (mem_walkAll_of_readAll h)

end

/-- With different names in every directory, the files that are listed are those that are found at
their paths. -/
theorem mem_walk_iff {node : Node N α} (h : Distinct id node) {f : List N × α} :
    f ∈ walk id node ↔ read node f.1 = some f.2 :=
  ⟨read_of_mem_walk h, mem_walk_of_read⟩

mutual

/-- Below a file there is nothing. -/
theorem read_append_eq_none : ∀ {node : Node N α} {path rest : List N} {content : α},
    read node path = some content → rest ≠ [] → read node (path ++ rest) = none
  | .file _, [], rest, _, _, hrest => by
    obtain ⟨name, rest, rfl⟩ := List.exists_cons_of_ne_nil hrest
    rw [List.nil_append, read]
  | .file _, _ :: _, _, _, h, _ => by
    rw [read] at h
    cases h
  | .dir _, [], _, _, h, _ => by
    rw [read] at h
    cases h
  | .dir entries, name :: path, _, _, h, hrest => by
    rw [read] at h
    rw [List.cons_append, read]
    exact readAll_append_eq_none h hrest
  | .other, _, _, _, h, _ => by
    rw [read] at h
    cases h

/-- Nothing is read below a file. -/
theorem readAll_append_eq_none : ∀ {entries : List (N × Node N α)} {name : N}
    {path rest : List N} {content : α}, readAll entries name path = some content → rest ≠ [] →
    readAll entries name (path ++ rest) = none
  | [], _, _, _, _, h, _ => by
    rw [readAll] at h
    cases h
  | (first, node) :: entries, name, path, rest, content, h, hrest => by
    rw [readAll] at h ⊢
    split at h
    · rename_i hname
      rw [if_pos hname]
      exact read_append_eq_none h hrest
    · rename_i hname
      rw [if_neg hname]
      exact readAll_append_eq_none h hrest

end

end Read

end Node

end Bqti.Core
