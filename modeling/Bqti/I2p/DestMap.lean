import Bqti.Core.Grouping
import Bqti.Core.NetAddr
import Bqti.Core.Run
import Mathlib.Data.List.Perm.Basic
import Mathlib.Logic.Function.Basic

/-!
# Addresses of I2P destinations

A socket of I2P gives every destination an internet address. A destination that is a prefix of an
earlier one, or the other way round, takes its address, and of several such earlier ones that of
the first in the order of the hash map. These may have different addresses, and then those that
share the chosen one need not be related to the new one at all.
-/

namespace Bqti.I2p

open Bqti.Core (Grouped Clique Forkless groupCount run)
open Bqti.Core.Net (SocketAddr Ipv4Addr)

/-- One of the two is a prefix of the other. -/
def Comparable (a b : String) : Prop := a.toList <+: b.toList ∨ b.toList <+: a.toList

instance : DecidableRel Comparable := fun _ _ => inferInstanceAs (Decidable (_ ∨ _))

instance : Std.Refl Comparable := ⟨fun a => .inl (List.prefix_refl a.toList)⟩

instance : Std.Symm Comparable := ⟨fun _ _ => Or.symm⟩

/-- The two maps and the number of the next address. -/
structure DestMap where
  destToAddr : List (String × SocketAddr)
  addrToDest : SocketAddr → Option String
  nextIp : UInt32

namespace DestMap

/-- An empty map. -/
def new : DestMap := ⟨[], fun _ => none, 1⟩

/-- The destination that an address stands for. -/
def resolve (self : DestMap) (addr : SocketAddr) : Option String := self.addrToDest addr

/-- The address of a number. The sum wraps. -/
def address (ip : UInt32) : SocketAddr := .v4 ⟨.ofU32 (0x0A000000 + ip), 4242⟩

/-- A destination takes the place of a shorter one for its address. -/
def extend (self : DestMap) (addr : SocketAddr) (dest : String) : SocketAddr → Option String :=
  match self.addrToDest addr with
  | some existing =>
      if existing.utf8ByteSize < dest.utf8ByteSize then
        Function.update self.addrToDest addr (some dest)
      else self.addrToDest
  | none => self.addrToDest

/-- The address of a destination and the map after it, where `order` is the order of the entries in
the hash map. -/
def getOrInsert (self : DestMap) (order : List (String × SocketAddr)) (dest : String) :
    SocketAddr × DestMap :=
  match self.destToAddr.lookup dest with
  | some addr => (addr, self)
  | none =>
      match order.find? fun entry => decide (Comparable dest entry.1) with
      | some (_, addr) =>
          (addr,
            { self with
              destToAddr := (dest, addr) :: self.destToAddr
              addrToDest := self.extend addr dest })
      | none =>
          let addr := address self.nextIp
          (addr,
            { destToAddr := (dest, addr) :: self.destToAddr
              addrToDest := Function.update self.addrToDest addr (some dest)
              nextIp := self.nextIp + 1 })

/-- A call, with the order of the hash map at its time. -/
structure Call where
  dest : String
  order : List (String × SocketAddr)

/-- Any order of the entries is possible, and no other. -/
def step (self : DestMap) (call : Call) : Option DestMap :=
  if call.order.Perm self.destToAddr then some (self.getOrInsert call.order call.dest).2 else none

/-- The destinations of the calls and the addresses that they return. -/
def answers : DestMap → List Call → List (String × SocketAddr)
  | _, [] => []
  | self, call :: calls =>
      let (addr, next) := self.getOrInsert call.order call.dest
      (call.dest, addr) :: answers next calls

/-- A destination keeps its address, only comparable ones share one, and what is sent to an address
goes to a destination that is comparable to all that have it. -/
structure Faithful (map : DestMap) (answers : List (String × SocketAddr)) : Prop where
  kept : ∀ p ∈ answers, ∀ q ∈ answers, p.1 = q.1 → p.2 = q.2
  apart : ∀ p ∈ answers, ∀ q ∈ answers, p.2 = q.2 → Comparable p.1 q.1
  resolved : ∀ p ∈ answers, ∃ dest, map.resolve p.2 = some dest ∧ Comparable dest p.1

/-! ## Groups -/

/-- The address of a group. -/
def groupAddr (g : ℕ) : SocketAddr := address (UInt32.ofNat (1 + g))

/-- Two groups share an address exactly if their numbers are equal as words. -/
theorem groupAddr_eq_iff (g g' : ℕ) : groupAddr g = groupAddr g' ↔ g % 2 ^ 32 = g' % 2 ^ 32 := by
  have haddress : ∀ m n : UInt32, address m = address n ↔ m = n := by
    intro m n
    simp [address, Ipv4Addr.ofU32_injective.eq_iff]
  rw [groupAddr, groupAddr, haddress, ← UInt32.toNat_inj, UInt32.toNat_ofNat', UInt32.toNat_ofNat']
  omega

/-- The map holds the groups of the destinations so far. -/
structure Represents (map : DestMap) (entries : List (String × ℕ)) (n : ℕ) : Prop where
  grouped : Grouped Comparable entries n
  nextIp : map.nextIp = UInt32.ofNat (1 + n)
  destToAddr : ∀ dest addr,
    (dest, addr) ∈ map.destToAddr ↔ ∃ g, (dest, g) ∈ entries ∧ addr = groupAddr g
  addrToDest : ∀ e ∈ entries, ∃ dest, map.addrToDest (groupAddr e.2) = some dest ∧
    ∃ g, (dest, g) ∈ entries ∧ groupAddr g = groupAddr e.2

/-- An address keeps the destination that it stands for, or gets one. -/
theorem extend_eq (map : DestMap) (addr : SocketAddr) (dest : String) :
    map.extend addr dest = Function.update map.addrToDest addr (some dest) ∨
      map.extend addr dest = map.addrToDest := by
  rw [extend]
  split
  · split
    · exact .inl rfl
    · exact .inr rfl
  · exact .inr rfl

/-- A new map represents no destinations. -/
theorem represents_new : Represents new [] 0 :=
  ⟨.nil, rfl, by simp [new], by simp⟩

namespace Represents

variable {map : DestMap} {entries : List (String × ℕ)} {n : ℕ} (h : Represents map entries n)
include h

/-- A known destination has the address of its group. -/
theorem lookup_eq {dest : String} {g : ℕ} (hdest : (dest, g) ∈ entries) :
    map.destToAddr.lookup dest = some (groupAddr g) := by
  have hmem : (dest, groupAddr g) ∈ map.destToAddr := (h.destToAddr _ _).mpr ⟨g, hdest, rfl⟩
  cases hlookup : map.destToAddr.lookup dest with
  | none =>
    exact absurd (List.lookup_eq_none_iff.mp hlookup _ hmem) (by simp)
  | some addr =>
    obtain ⟨before, after, heq, -⟩ := List.lookup_eq_some_iff.mp hlookup
    have hread : (dest, addr) ∈ map.destToAddr := by simp [heq]
    obtain ⟨g', hdest', rfl⟩ := (h.destToAddr _ _).mp hread
    have hg : g' = g := h.grouped.functional _ hdest' _ hdest rfl
    rw [hg]

/-- An unknown destination has no address. -/
theorem lookup_eq_none {dest : String} (hnew : ∀ e ∈ entries, e.1 ≠ dest) :
    map.destToAddr.lookup dest = none := by
  rw [List.lookup_eq_none_iff]
  rintro ⟨old, addr⟩ hmem
  obtain ⟨g, hold, -⟩ := (h.destToAddr _ _).mp hmem
  simpa using (hnew _ hold).symm

/-- A destination that has come before has its address already. -/
theorem again {dest : String} {g : ℕ} (hdest : (dest, g) ∈ entries)
    (order : List (String × SocketAddr)) :
    map.getOrInsert order dest = (groupAddr g, map) ∧
      Represents map ((dest, g) :: entries) n := by
  have hsame : ∀ e : String × ℕ, e ∈ (dest, g) :: entries ↔ e ∈ entries := by
    intro e
    rw [List.mem_cons, or_iff_right_of_imp]
    rintro rfl
    exact hdest
  refine ⟨by rw [getOrInsert, h.lookup_eq hdest], h.grouped.again hdest, h.nextIp, ?_, ?_⟩
  · simpa only [hsame] using h.destToAddr
  · simpa only [hsame] using h.addrToDest

/-- A new destination is listed with the address of its group. -/
theorem destToAddr_cons (dest : String) (g : ℕ) (d : String) (addr : SocketAddr) :
    (d, addr) ∈ (dest, groupAddr g) :: map.destToAddr ↔
      ∃ g', (d, g') ∈ (dest, g) :: entries ∧ addr = groupAddr g' := by
  simp only [List.mem_cons, Prod.mk.injEq, h.destToAddr]
  constructor
  · rintro (⟨rfl, rfl⟩ | ⟨g', hd, rfl⟩)
    · exact ⟨g, .inl ⟨rfl, rfl⟩, rfl⟩
    · exact ⟨g', .inr hd, rfl⟩
  · rintro ⟨g', ⟨rfl, rfl⟩ | hd, rfl⟩
    · exact .inl ⟨rfl, rfl⟩
    · exact .inr ⟨g', hd, rfl⟩

/-- The new destination may stand for its address. -/
theorem addrToDest_update (dest : String) (g : ℕ) :
    ∀ e ∈ (dest, g) :: entries,
      ∃ d, Function.update map.addrToDest (groupAddr g) (some dest) (groupAddr e.2) = some d ∧
        ∃ g', (d, g') ∈ (dest, g) :: entries ∧ groupAddr g' = groupAddr e.2 := by
  intro e he
  by_cases haddr : groupAddr e.2 = groupAddr g
  · exact ⟨dest, by rw [haddr, Function.update_self], g, List.mem_cons_self, haddr.symm⟩
  · have hold : e ∈ entries := (List.mem_cons.mp he).resolve_left fun heq => haddr (heq ▸ rfl)
    obtain ⟨d, hd, g', hmem, hg'⟩ := h.addrToDest e hold
    exact ⟨d, by rw [Function.update_of_ne haddr, hd], g', List.mem_cons_of_mem _ hmem, hg'⟩

/-- Or the one that stood for it stays. -/
theorem addrToDest_keep (dest : String) {found : String} {g : ℕ} (hfound : (found, g) ∈ entries) :
    ∀ e ∈ (dest, g) :: entries, ∃ d, map.addrToDest (groupAddr e.2) = some d ∧
      ∃ g', (d, g') ∈ (dest, g) :: entries ∧ groupAddr g' = groupAddr e.2 := by
  have hold : ∀ e ∈ entries, ∃ d, map.addrToDest (groupAddr e.2) = some d ∧
      ∃ g', (d, g') ∈ (dest, g) :: entries ∧ groupAddr g' = groupAddr e.2 := by
    intro e he
    obtain ⟨d, hd, g', hmem, hg'⟩ := h.addrToDest e he
    exact ⟨d, hd, g', List.mem_cons_of_mem _ hmem, hg'⟩
  exact List.forall_mem_cons.mpr ⟨hold (found, g) hfound, hold⟩

/-- A comparable destination that is found gives its address to a new one. -/
theorem join {dest found : String} {g : ℕ} {order : List (String × SocketAddr)}
    (hnew : ∀ e ∈ entries, e.1 ≠ dest) (hfound : (found, g) ∈ entries)
    (hfind : order.find? (fun entry => decide (Comparable dest entry.1)) =
      some (found, groupAddr g)) :
    (map.getOrInsert order dest).1 = groupAddr g ∧
      Represents (map.getOrInsert order dest).2 ((dest, g) :: entries) n := by
  have hnear : Comparable dest found := by simpa using List.find?_some hfind
  rw [getOrInsert, h.lookup_eq_none hnew]
  simp only
  rw [hfind]
  refine ⟨rfl, h.grouped.join hnew hfound (Std.Symm.symm _ _ hnear), h.nextIp,
    h.destToAddr_cons dest g, ?_⟩
  rcases map.extend_eq (groupAddr g) dest with heq | heq
  · simp only [heq]
    exact h.addrToDest_update dest g
  · simp only [heq]
    exact h.addrToDest_keep dest hfound

/-- Without a comparable destination the next address is taken. -/
theorem start {dest : String} {order : List (String × SocketAddr)}
    (horder : order.Perm map.destToAddr) (hfar : ∀ e ∈ entries, ¬ Comparable e.1 dest) :
    (map.getOrInsert order dest).1 = groupAddr n ∧
      Represents (map.getOrInsert order dest).2 ((dest, n) :: entries) (n + 1) := by
  have hnew : ∀ e ∈ entries, e.1 ≠ dest := fun e he heq =>
    hfar e he (heq ▸ Std.Refl.refl e.1)
  have hfind : order.find? (fun entry => decide (Comparable dest entry.1)) = none := by
    rw [List.find?_eq_none]
    rintro ⟨old, addr⟩ hmem
    obtain ⟨g, hold, -⟩ := (h.destToAddr _ _).mp (horder.mem_iff.mp hmem)
    simpa using fun hnear => hfar _ hold (Std.Symm.symm _ _ hnear)
  have haddr : address map.nextIp = groupAddr n := by rw [h.nextIp, groupAddr]
  rw [getOrInsert, h.lookup_eq_none hnew]
  simp only
  rw [hfind]
  simp only [haddr]
  refine ⟨trivial, h.grouped.start hfar, ?_, h.destToAddr_cons dest n, h.addrToDest_update dest n⟩
  simp only [h.nextIp, ← Nat.add_assoc, UInt32.ofNat_add, UInt32.ofNat_one]

/-- Whatever the order, a call puts its destination into a group and returns its address. -/
theorem exists_next {call : Call} (horder : call.order.Perm map.destToAddr) :
    ∃ g m, (map.getOrInsert call.order call.dest).1 = groupAddr g ∧
      Represents (map.getOrInsert call.order call.dest).2 ((call.dest, g) :: entries) m := by
  by_cases hold : ∃ g, (call.dest, g) ∈ entries
  · obtain ⟨g, hdest⟩ := hold
    obtain ⟨heq, hnext⟩ := h.again hdest call.order
    exact ⟨g, n, by rw [heq], by rw [heq]; exact hnext⟩
  · have hnew : ∀ e ∈ entries, e.1 ≠ call.dest := by
      rintro ⟨_, g⟩ he rfl
      exact hold ⟨g, he⟩
    cases hfind : call.order.find? fun entry => decide (Comparable call.dest entry.1) with
    | none =>
      refine ⟨n, n + 1, h.start horder fun e he hnear => ?_⟩
      have hmem : (e.1, groupAddr e.2) ∈ call.order :=
        horder.mem_iff.mpr ((h.destToAddr _ _).mpr ⟨e.2, he, rfl⟩)
      simpa [Std.Symm.symm _ _ hnear] using List.find?_eq_none.mp hfind _ hmem
    | some entry =>
      obtain ⟨found, addr⟩ := entry
      have hmem := horder.mem_iff.mp (List.mem_of_find?_eq_some hfind)
      obtain ⟨g, hfound, rfl⟩ := (h.destToAddr _ _).mp hmem
      exact ⟨g, n, h.join hnew hfound hfind⟩

end Represents

/-! ## Runs -/

/-- The answer for a grouped destination. -/
def answer (e : String × ℕ) : String × SocketAddr := (e.1, groupAddr e.2)

/-- A call looks at the destinations in some order. -/
theorem step_eq_some_iff {map next : DestMap} {call : Call} :
    step map call = some next ↔
      call.order.Perm map.destToAddr ∧ (map.getOrInsert call.order call.dest).2 = next := by
  rw [step]
  split <;> simp_all

/-- Every run groups its destinations. -/
theorem run_represents {map last : DestMap} {entries : List (String × ℕ)} {n : ℕ}
    {calls : List Call} (h : Represents map entries n) (hrun : run step map calls = some last) :
    ∃ more m, Represents last (more ++ entries) m ∧
      more.map Prod.fst = (calls.map Call.dest).reverse ∧
      answers map calls = (more.map answer).reverse := by
  induction calls generalizing map entries n with
  | nil =>
    obtain rfl := Option.some.inj hrun
    exact ⟨[], n, h, rfl, rfl⟩
  | cons call calls ih =>
    obtain ⟨next, hstep, hrest⟩ := Core.run_cons_eq_some.mp hrun
    obtain ⟨horder, rfl⟩ := step_eq_some_iff.mp hstep
    obtain ⟨g, m, haddr, hnext⟩ := h.exists_next horder
    obtain ⟨more, m', hlast, hkeys, hanswers⟩ := ih hnext hrest
    refine ⟨more ++ [(call.dest, g)], m', by simpa using hlast, by simp [hkeys], ?_⟩
    simp [answers, hanswers, haddr, answer]

/-- The answers to later calls come behind the earlier ones. -/
theorem answers_append {map last : DestMap} {calls : List Call} (more : List Call)
    (h : run step map calls = some last) :
    answers map (calls ++ more) = answers map calls ++ answers last more := by
  induction calls generalizing map with
  | nil =>
    obtain rfl := Option.some.inj h
    rfl
  | cons call calls ih =>
    obtain ⟨next, hstep, hrest⟩ := Core.run_cons_eq_some.mp h
    obtain ⟨-, rfl⟩ := step_eq_some_iff.mp hstep
    simp only [List.cons_append, answers, ih hrest]

/-- A run from the empty map with the given groups. -/
def Realised (entries : List (String × ℕ)) (n : ℕ) : Prop :=
  ∃ calls last, run step new calls = some last ∧ Represents last entries n ∧
    calls.map Call.dest = (entries.map Prod.fst).reverse ∧
    answers new calls = (entries.map answer).reverse

/-- One more call realises one more group. -/
theorem Realised.cons {entries : List (String × ℕ)} {n m g : ℕ} {dest : String}
    (h : Realised entries n)
    (hnext : ∀ map, Represents map entries n → ∃ order, order.Perm map.destToAddr ∧
      (map.getOrInsert order dest).1 = groupAddr g ∧
      Represents (map.getOrInsert order dest).2 ((dest, g) :: entries) m) :
    Realised ((dest, g) :: entries) m := by
  obtain ⟨calls, last, hrun, hlast, hkeys, hanswers⟩ := h
  obtain ⟨order, horder, haddr, hnext⟩ := hnext last hlast
  refine ⟨calls ++ [⟨dest, order⟩], _, Core.run_append_eq_some.mpr ⟨last, hrun,
    Core.run_cons_eq_some.mpr ⟨_, step_eq_some_iff.mpr ⟨horder, rfl⟩, rfl⟩⟩, hnext,
    by simp [hkeys], ?_⟩
  rw [answers_append _ hrun, hanswers]
  simp [answers, haddr, answer]

/-- Every choice of groups is that of a run, for some orders of the hash map. -/
theorem realised_of_grouped {entries : List (String × ℕ)} {n : ℕ}
    (h : Grouped Comparable entries n) : Realised entries n := by
  induction h with
  | nil => exact ⟨[], new, rfl, represents_new, rfl, rfl⟩
  | again h hdest ih =>
    refine ih.cons fun map hmap => ⟨map.destToAddr, List.Perm.refl _, ?_⟩
    obtain ⟨heq, hnext⟩ := hmap.again hdest map.destToAddr
    exact ⟨by rw [heq], by rw [heq]; exact hnext⟩
  | @join entries n dest found g h hnew hfound hnear ih =>
    refine ih.cons fun map hmap => ?_
    -- The related destination comes first in the order.
    have hmem : (found, groupAddr g) ∈ map.destToAddr := (hmap.destToAddr _ _).mpr ⟨g, hfound, rfl⟩
    refine ⟨(found, groupAddr g) :: map.destToAddr.erase (found, groupAddr g),
      (List.perm_cons_erase hmem).symm, hmap.join hnew hfound ?_⟩
    rw [List.find?_cons_of_pos]
    simpa using Std.Symm.symm _ _ hnear
  | start h hfar ih =>
    exact ih.cons fun map hmap =>
      ⟨map.destToAddr, List.Perm.refl _, hmap.start (List.Perm.refl _) hfar⟩

/-- In a faithful run the members of a group are comparable. -/
theorem comparable_of_faithful {entries : List (String × ℕ)} {map : DestMap}
    (h : Faithful map (entries.map answer).reverse) {e f : String × ℕ} (he : e ∈ entries)
    (hf : f ∈ entries) (haddr : groupAddr e.2 = groupAddr f.2) : Comparable e.1 f.1 := by
  have hanswer : ∀ e ∈ entries, answer e ∈ (entries.map answer).reverse := fun e he =>
    List.mem_reverse.mpr (List.mem_map_of_mem he)
  exact h.apart _ (hanswer e he) _ (hanswer f hf) haddr

/-- Groups of comparable members with addresses of their own make a faithful map. -/
theorem Represents.faithful {map : DestMap} {entries : List (String × ℕ)} {n : ℕ}
    (h : Represents map entries n) (hclique : Clique Comparable entries) (hn : n ≤ 2 ^ 32) :
    Faithful map (entries.map answer).reverse := by
  have hinj : ∀ e ∈ entries, ∀ f ∈ entries, groupAddr e.2 = groupAddr f.2 → e.2 = f.2 := by
    intro e he f hf haddr
    have hlte := h.grouped.lt e he
    have hltf := h.grouped.lt f hf
    rw [groupAddr_eq_iff] at haddr
    omega
  constructor
  · simp only [List.mem_reverse, List.forall_mem_map]
    intro e he f hf hkey
    exact congrArg groupAddr (h.grouped.functional e he f hf hkey)
  · simp only [List.mem_reverse, List.forall_mem_map]
    intro e he f hf haddr
    exact hclique e he f hf (hinj e he f hf haddr)
  · simp only [List.mem_reverse, List.forall_mem_map]
    intro e he
    obtain ⟨dest, hdest, g, hmem, haddr⟩ := h.addrToDest e he
    exact ⟨dest, hdest, hclique _ hmem e he (hinj _ hmem e he haddr)⟩

/-- Under every order of the hash map the addresses are faithful, exactly if no destination is at
its first request comparable to one of two comparable earlier ones and not to the other, and no more
than 2^32 destinations have no comparable earlier one. -/
theorem faithful_iff (dests : List String) :
    (∀ calls last, calls.map Call.dest = dests → run step new calls = some last →
        Faithful last (answers new calls)) ↔
      Forkless Comparable dests.reverse ∧ groupCount Comparable dests.reverse ≤ 2 ^ 32 := by
  constructor
  · intro h
    have hgrouped : ∀ entries n, Grouped Comparable entries n →
        entries.map Prod.fst = dests.reverse →
        ∃ map, Faithful map (entries.map answer).reverse := by
      intro entries n hgrouped hkeys
      obtain ⟨calls, last, hrun, -, hcalls, hanswers⟩ := realised_of_grouped hgrouped
      rw [← hanswers]
      exact ⟨last, h calls last (by rw [hcalls, hkeys, List.reverse_reverse]) hrun⟩
    constructor
    · refine Core.forkless_of_clique fun entries n hentries hkeys e he f hf heq => ?_
      obtain ⟨map, hfaithful⟩ := hgrouped entries n hentries hkeys
      exact comparable_of_faithful hfaithful he hf (congrArg groupAddr heq)
    · obtain ⟨entries, n, hentries, hkeys⟩ := Grouped.exists_keys Comparable dests.reverse
      obtain ⟨map, hfaithful⟩ := hgrouped entries n hentries hkeys
      rw [← hkeys, ← hentries.count_eq]
      -- The first group and the one with the same address have unrelated members.
      by_contra hmany
      obtain ⟨k, k', hk, hk', hfar⟩ := hentries.exists_apart (Nat.two_pow_pos 32) (not_le.mp hmany)
      have haddr : groupAddr 0 = groupAddr (2 ^ 32) := (groupAddr_eq_iff _ _).mpr (by decide)
      exact hfar (comparable_of_faithful hfaithful hk hk' haddr)
  · rintro ⟨hfork, hcount⟩ calls last hcalls hrun
    obtain ⟨entries, n, hlast, hkeys, hanswers⟩ := run_represents represents_new hrun
    rw [List.append_nil] at hlast
    rw [hcalls] at hkeys
    rw [hanswers]
    refine hlast.faithful (hlast.grouped.clique (hkeys ▸ hfork)) ?_
    rw [hlast.grouped.count_eq, hkeys]
    exact hcount

/-- The calls for `a`, `ab` and `ac`, of which the last one finds `a` first. -/
def forkCalls : List Call :=
  [⟨"a", []⟩, ⟨"ab", [("a", address 1)]⟩, ⟨"ac", [("a", address 1), ("ab", address 1)]⟩]

/-- What is sent to `ac` goes to `ab`. -/
theorem fork_shares_address :
    answers new forkCalls = [("a", address 1), ("ab", address 1), ("ac", address 1)] ∧
    (run step new forkCalls).map (fun last => last.resolve (address 1)) = some (some "ab") ∧
    ¬ ∀ calls last, calls.map Call.dest = ["a", "ab", "ac"] → run step new calls = some last →
      Faithful last (answers new calls) := by
  have hanswers : answers new forkCalls =
      [("a", address 1), ("ab", address 1), ("ac", address 1)] := by decide +kernel
  have hresolve : (run step new forkCalls).map (fun last => last.resolve (address 1)) =
      some (some "ab") := by decide +kernel
  refine ⟨hanswers, hresolve, fun h => ?_⟩
  obtain ⟨last, hrun, -⟩ := Option.map_eq_some_iff.mp hresolve
  have hfaithful := h forkCalls last rfl hrun
  have hnear : Comparable "ab" "ac" :=
    hfaithful.apart ("ab", address 1) (by simp [hanswers]) ("ac", address 1) (by simp [hanswers])
      rfl
  exact absurd hnear (by decide +kernel)

end DestMap

end Bqti.I2p
