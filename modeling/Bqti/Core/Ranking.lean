import Mathlib.Data.List.Sort
import Mathlib.Data.Prod.Lex
import Bqti.Core.Word

/-!
# Stable sorting by a key

Elements are sorted by a key in a linear order; elements of one key keep their order. The
place of an element in the sorted list is the number of elements before it, counted over the
positions of the unsorted list, so that a statement about the first elements of the sorted list
can be read off the unsorted one.
-/

namespace Bqti.Core

section Sorting

variable {α β : Type*} [LinearOrder β]

/-- Sort by a key; elements of one key keep their order. -/
def sortOn (f : α → β) (l : List α) : List α := l.insertionSort fun a b => f a ≤ f b

variable (f : α → β) (l : List α)

/-- Sorting permutes. -/
theorem sortOn_perm : (sortOn f l).Perm l := List.perm_insertionSort _ l

@[simp] theorem mem_sortOn {a : α} : a ∈ sortOn f l ↔ a ∈ l := (sortOn_perm f l).mem_iff

@[simp] theorem length_sortOn : (sortOn f l).length = l.length := (sortOn_perm f l).length_eq

/-- The sorted list is sorted. -/
theorem sortOn_sorted : (sortOn f l).Pairwise fun a b => f a ≤ f b := by
  have : Std.Total fun a b : α => f a ≤ f b := ⟨fun a b => le_total (f a) (f b)⟩
  have : IsTrans α fun a b => f a ≤ f b := ⟨fun _ _ _ => le_trans⟩
  exact List.pairwise_insertionSort _ l

/-- Sorting after a mapping is sorting by the key of the images. -/
theorem sortOn_map {γ : Type*} (g : γ → α) (l : List γ) :
    sortOn f (l.map g) = (sortOn (fun c => f (g c)) l).map g := by
  symm
  apply List.map_insertionSort
  exact fun _ _ _ _ => Iff.rfl

variable {f l}

/-- Sort by a comparison; what it does not tell apart keeps its order. -/
def sortBy (cmp : α → α → Ordering) (l : List α) : List α :=
  l.insertionSort fun a b => (cmp a b).isLE = true

/-- A comparison of keys sorts by the key. -/
theorem sortBy_eq_sortOn {cmp : α → α → Ordering} (h : ∀ a b, cmp a b = compare (f a) (f b))
    (l : List α) : sortBy cmp l = sortOn f l := by
  have hrel : (fun a b => (cmp a b).isLE = true) = fun a b => f a ≤ f b := by
    funext a b
    rw [h, ← Ordering.ne_gt_iff_isLE, ← ne_eq, compare_le_iff_le]
  simp only [sortBy, sortOn, hrel]

/-- What comes later in a sorted list has no smaller key than what comes first. -/
theorem le_of_mem_take_of_mem_drop {s : List α} (hs : s.Pairwise fun a b => f a ≤ f b)
    {n : Nat} {a b : α} (ha : a ∈ s.take n) (hb : b ∈ s.drop n) : f a ≤ f b := by
  rw [← List.take_append_drop n s, List.pairwise_append] at hs
  exact hs.2.2 a ha b hb

end Sorting

section Rank

variable {α β : Type*} [LinearOrder β]

/-- The key of a position: the key of the element, then the position. -/
def placeKey (f : α → β) (p : α × Nat) : β ×ₗ Nat := toLex (f p.1, p.2)

/-- A position comes before another one in the sorted list. -/
def Before (f : α → β) (p q : α × Nat) : Prop := f p.1 < f q.1 ∨ f p.1 = f q.1 ∧ p.2 < q.2

instance (f : α → β) (p q : α × Nat) : Decidable (Before f p q) :=
  inferInstanceAs (Decidable (_ ∨ _))

/-- The number of positions that come before a position. -/
def rank (f : α → β) (l : List α) (p : α × Nat) : Nat :=
  l.zipIdx.countP fun q => Before f q p

variable {f : α → β} {l : List α}

/-- Keys of places are ordered as the places are. -/
theorem placeKey_lt_iff {p q : α × Nat} : placeKey f p < placeKey f q ↔ Before f p q := by
  simp only [placeKey, Prod.Lex.toLex_lt_toLex, Before]

/-- Inserting an element that agrees with its image about what it goes before. -/
theorem map_orderedInsert_of_left {γ : Type*} {r : α → α → Prop} {s : γ → γ → Prop}
    [DecidableRel r] [DecidableRel s] {g : α → γ} {a : α} {l : List α}
    (h : ∀ b ∈ l, r a b ↔ s (g a) (g b)) :
    (l.orderedInsert r a).map g = (l.map g).orderedInsert s (g a) := by
  induction l with
  | nil => rfl
  | cons b l ih =>
    simp only [List.orderedInsert_cons, List.map_cons]
    have hb := h b List.mem_cons_self
    by_cases hr : r a b
    · rw [if_pos hr, if_pos (hb.mp hr), List.map_cons, List.map_cons]
    · rw [if_neg hr, if_neg (fun hs => hr (hb.mpr hs)), List.map_cons,
        ih fun c hc => h c (List.mem_cons_of_mem b hc)]

/-- Sorting the elements is sorting their positions. -/
theorem map_sortOn_placeKey (n : Nat) :
    (sortOn (placeKey f) (l.zipIdx n)).map Prod.fst = sortOn f l := by
  induction l generalizing n with
  | nil => rfl
  | cons a l ih =>
    simp only [sortOn, List.zipIdx_cons, List.insertionSort_cons] at ih ⊢
    rw [← ih (n + 1)]
    apply map_orderedInsert_of_left
    intro q hq
    have hidx := List.le_snd_of_mem_zipIdx ((List.mem_insertionSort _).mp hq)
    simp only [placeKey, Prod.Lex.toLex_le_toLex]
    constructor
    · rintro (hlt | ⟨heq, -⟩)
      · exact hlt.le
      · exact heq.le
    · intro hle
      rcases hle.lt_or_eq with hlt | heq
      · exact Or.inl hlt
      · exact Or.inr ⟨heq, by omega⟩

/-- In a strictly sorted list the place of an element is the number of smaller ones. -/
theorem countP_lt_getElem {γ : Type*} [LinearOrder γ] {g : α → γ} {s : List α}
    (hs : s.Pairwise fun a b => g a < g b) {i : Nat} (hi : i < s.length) :
    s.countP (fun a => g a < g s[i]) = i := by
  have hsplit : s = s.take i ++ s[i] :: s.drop (i + 1) := by simp
  have hpair := hs
  rw [hsplit, List.pairwise_append, List.pairwise_cons] at hpair
  obtain ⟨-, ⟨hafter, -⟩, hacross⟩ := hpair
  have hbefore : (s.take i).countP (fun a => g a < g s[i]) = (s.take i).length := by
    refine List.countP_eq_length.mpr fun a ha => ?_
    exact decide_eq_true (hacross a ha _ List.mem_cons_self)
  have hrest : (s[i] :: s.drop (i + 1)).countP (fun a => g a < g s[i]) = 0 := by
    refine List.countP_eq_zero.mpr fun a ha => ?_
    rcases List.mem_cons.mp ha with rfl | ha
    · simp
    · simpa using (hafter a ha).le
  calc s.countP (fun a => g a < g s[i])
      = (s.take i ++ s[i] :: s.drop (i + 1)).countP (fun a => g a < g s[i]) := by rw [← hsplit]
    _ = i := by rw [List.countP_append, hbefore, hrest, List.length_take]; omega

/-- The positions sorted by key and position. -/
def places (f : α → β) (l : List α) : List (α × Nat) := sortOn (placeKey f) l.zipIdx

/-- Later places have larger keys. -/
theorem places_strict : (places f l).Pairwise fun p q => placeKey f p < placeKey f q := by
  have hle := sortOn_sorted (placeKey f) l.zipIdx
  have hne : (places f l).Pairwise fun p q => p.2 ≠ q.2 := by
    rw [← List.pairwise_map]
    refine ((sortOn_perm (placeKey f) l.zipIdx).map Prod.snd).nodup_iff.mpr ?_
    rw [List.zipIdx_map_snd]
    exact List.nodup_range'
  refine hle.imp₂ (fun p q hpq hne => hpq.lt_of_ne fun heq => hne ?_) hne
  exact congrArg (fun k => (ofLex k).2) heq

/-- The place of a position is its rank. -/
theorem rank_getElem_places {i : Nat} (hi : i < (places f l).length) :
    rank f l (places f l)[i] = i := by
  have hperm := (sortOn_perm (placeKey f) l.zipIdx).countP_eq
    fun q => decide (Before f q (places f l)[i])
  rw [rank, ← hperm]
  simp only [← placeKey_lt_iff]
  exact countP_lt_getElem places_strict hi

/-- Whoever is among the first has a small rank. -/
theorem rank_lt_of_mem_take {n : Nat} {p : α × Nat} (hp : p ∈ (places f l).take n) :
    rank f l p < n := by
  obtain ⟨i, hi, rfl⟩ := List.getElem_of_mem hp
  rw [List.length_take] at hi
  rw [List.getElem_take, rank_getElem_places (by omega)]
  omega

/-- Whoever is behind the first has a large rank. -/
theorem le_rank_of_mem_drop {n : Nat} {p : α × Nat} (hp : p ∈ (places f l).drop n) :
    n ≤ rank f l p := by
  obtain ⟨i, hi, rfl⟩ := List.getElem_of_mem hp
  rw [List.length_drop] at hi
  rw [List.getElem_drop, rank_getElem_places (by omega)]
  omega

/-- A relation along a strictly sorted list is a relation from smaller to larger elements. -/
theorem pairwise_iff_of_strict {γ : Type*} [LinearOrder γ] {g : α → γ} {s : List α}
    (hs : s.Pairwise fun a b => g a < g b) {R : α → α → Prop} :
    s.Pairwise R ↔ ∀ a ∈ s, ∀ b ∈ s, g a < g b → R a b := by
  constructor
  · intro hR a ha b hb hlt
    obtain ⟨i, hi, rfl⟩ := List.getElem_of_mem ha
    obtain ⟨j, hj, rfl⟩ := List.getElem_of_mem hb
    rcases Nat.lt_trichotomy i j with hij | rfl | hji
    · exact List.pairwise_iff_getElem.mp hR i j hi hj hij
    · exact absurd hlt (lt_irrefl _)
    · exact absurd (List.pairwise_iff_getElem.mp hs j i hj hi hji) hlt.not_gt
  · intro hall
    exact hs.imp_of_mem fun ha hb hlt => hall _ ha _ hb hlt

/-- The first elements of the sorted list are related to everything after them precisely when
every position with few others before it is related to what comes after it. -/
theorem take_sortOn_iff {R : α → α → Prop} {n : Nat} :
    ((sortOn f l).take n).Pairwise R ∧
        (∀ a ∈ (sortOn f l).take n, ∀ b ∈ (sortOn f l).drop n, R a b) ↔
      ∀ p ∈ l.zipIdx, ∀ q ∈ l.zipIdx, Before f p q → rank f l p < n → R p.1 q.1 := by
  have hmem : ∀ p, p ∈ places f l ↔ p ∈ l.zipIdx := fun p => mem_sortOn (placeKey f) l.zipIdx
  have hplaces : (places f l).Pairwise (fun p q => rank f l p < n → R p.1 q.1) ↔
      ∀ p ∈ l.zipIdx, ∀ q ∈ l.zipIdx, Before f p q → rank f l p < n → R p.1 q.1 := by
    rw [pairwise_iff_of_strict (g := placeKey f) places_strict]
    simp only [hmem, placeKey_lt_iff]
  have hfst : sortOn f l = (places f l).map Prod.fst := (map_sortOn_placeKey 0).symm
  rw [← hplaces, hfst, ← List.map_take, ← List.map_drop, List.pairwise_map]
  simp only [List.forall_mem_map]
  constructor
  · rintro ⟨htake, hacross⟩
    rw [← List.take_append_drop n (places f l), List.pairwise_append]
    refine ⟨?_, ?_, fun p hp q hq _ => hacross p hp q hq⟩
    · apply htake.imp
      exact fun h _ => h
    · refine List.pairwise_of_forall_mem_list fun p hp q _ hlt => ?_
      exact absurd hlt (le_rank_of_mem_drop hp).not_gt
  · intro hall
    rw [← List.take_append_drop n (places f l), List.pairwise_append] at hall
    obtain ⟨htake, -, hacross⟩ := hall
    refine ⟨?_, fun p hp q hq => hacross p hp q hq (rank_lt_of_mem_take hp)⟩
    exact htake.imp_of_mem fun hp _ h => h (rank_lt_of_mem_take hp)

end Rank

section ByteOrder

/-- The number that a byte string spells, most significant byte first. -/
def numeral : Bytes → Nat
  | [] => 0
  | b :: bs => b.toNat * 256 ^ bs.length + numeral bs

/-- Byte strings compare byte by byte. -/
def cmpBytes : Bytes → Bytes → Ordering
  | [], [] => .eq
  | [], _ :: _ => .lt
  | _ :: _, [] => .gt
  | a :: as, b :: bs => (compare a.toNat b.toNat).then (cmpBytes as bs)

/-- A numeral is bounded by its number of digits. -/
theorem numeral_lt (bs : Bytes) : numeral bs < 256 ^ bs.length := by
  induction bs with
  | nil => simp [numeral]
  | cons b bs ih =>
    have hb := b.toNat_lt
    have hle : (b.toNat + 1) * 256 ^ bs.length ≤ 256 * 256 ^ bs.length :=
      Nat.mul_le_mul_right _ (by omega)
    rw [numeral, List.length_cons, Nat.pow_succ]
    rw [Nat.add_mul] at hle
    omega

/-- Byte strings of one length compare as the numbers they spell. -/
theorem cmpBytes_eq_compare {as bs : Bytes} (h : as.length = bs.length) :
    cmpBytes as bs = compare (numeral as) (numeral bs) := by
  induction as generalizing bs with
  | nil =>
    cases bs with
    | nil => rfl
    | cons b bs => simp at h
  | cons a as ih =>
    cases bs with
    | nil => simp at h
    | cons b bs =>
      have hlen : as.length = bs.length := by simpa using h
      have ha := numeral_lt as
      have hb := numeral_lt bs
      rw [cmpBytes, ih hlen, numeral, numeral, hlen]
      rw [hlen] at ha
      rcases Nat.lt_trichotomy a.toNat b.toNat with hlt | heq | hgt
      · have hmul : (a.toNat + 1) * 256 ^ bs.length ≤ b.toNat * 256 ^ bs.length :=
          Nat.mul_le_mul_right _ hlt
        have hnum : a.toNat * 256 ^ bs.length + numeral as <
            b.toNat * 256 ^ bs.length + numeral bs := by
          rw [Nat.add_mul] at hmul
          omega
        rw [compare_lt_iff_lt.mpr hlt, compare_lt_iff_lt.mpr hnum]
        rfl
      · have hsum : compare (b.toNat * 256 ^ bs.length + numeral as)
            (b.toNat * 256 ^ bs.length + numeral bs) = compare (numeral as) (numeral bs) := by
          simp only [compare, compareOfLessAndEq, Nat.add_lt_add_iff_left, Nat.add_left_cancel_iff]
        rw [heq, compare_eq_iff_eq.mpr rfl, hsum]
        rfl
      · have hmul : (b.toNat + 1) * 256 ^ bs.length ≤ a.toNat * 256 ^ bs.length :=
          Nat.mul_le_mul_right _ hgt
        have hnum : b.toNat * 256 ^ bs.length + numeral bs <
            a.toNat * 256 ^ bs.length + numeral as := by
          rw [Nat.add_mul] at hmul
          omega
        rw [compare_gt_iff_gt.mpr hgt, compare_gt_iff_gt.mpr hnum]
        rfl

end ByteOrder

end Bqti.Core
