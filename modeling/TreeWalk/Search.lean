/-
  TreeWalk.Search — counting nodes, and finding those that satisfy a predicate.

  Each search is a visit with one `enter` callback. A predicate is asked once for every node that is entered; its
  answer counts by its truth, and it may change the store like any callback.
-/

import TreeWalk.Walk.Visit

namespace TreeWalk

variable {σ ν : Type}

abbrev Predicate (σ ν : Type) := Value → Store → σ → Answer σ ν

/-- A predicate's memory, and the nodes found so far. -/
structure Gathered (σ : Type) where
  found : List Value
  memory : σ

/-- Ask the predicate; keep the node if it says so, and return `yes` then. -/
def Predicate.gather (p : Predicate σ ν) (yes : Value) : Callback (Gathered σ) ν := fun c s g =>
  let a := p c.node s g.memory
  let holds := match a.outcome with
    | .ok v => v.truthy a.store
    | .error _ => false
  { outcome := a.outcome.map fun _ => if holds then yes else .null
    store := a.store
    memory := ⟨if holds then g.found ++ [c.node] else g.found, a.memory⟩
    notes := a.notes
    ancestors := c.ancestors }

/-- The nodes that satisfy the predicate, in the order in which they are entered. -/
def findAll (fuel : Nat) (debug : Bool) (settings : Option Settings) (p : Predicate σ ν) (tree : Value)
    (store : Store) (memory : σ) : Run (Gathered σ) ν :=
  visit fuel debug settings (.function (p.gather .null)) tree store ⟨[], memory⟩

/-- The same, but the walk ends at the first node that satisfies the predicate. -/
def findFirst (fuel : Nat) (debug : Bool) (settings : Option Settings) (p : Predicate σ ν) (tree : Value)
    (store : Store) (memory : σ) : Run (Gathered σ) ν :=
  visit fuel debug settings (.function (p.gather (.action .exit))) tree store ⟨[], memory⟩

def tally : Callback Nat ν := fun c s n => c.answer s (n + 1) (.ok .null)

/-- How many nodes are entered. -/
def countAll (fuel : Nat) (debug : Bool) (settings : Option Settings) (tree : Value) (store : Store) : Run Nat ν :=
  visit fuel debug settings (.function tally) tree store 0

end TreeWalk
