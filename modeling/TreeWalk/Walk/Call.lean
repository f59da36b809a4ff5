/-
  TreeWalk.Walk.Call — what a callback is told, and what it may do.

  A callback is a function of the call, the store and a memory of its own type. It answers with a value or a fault,
  and may leave a changed store, a changed memory, and its list of ancestors in another state. It may also leave notes,
  which the walk keeps in order. Nothing else passes between a walk and its callbacks.
-/

import TreeWalk.Fault
import TreeWalk.Store

namespace TreeWalk

/-- A node at the place where the walk came upon it. -/
structure Occurrence where
  node : Value
  /-- The field of the parent that leads to the node. -/
  key : Option String
  /-- The position, if that field holds a list or tuple. -/
  index : Option Nat
  /-- The way from the root to the parent. -/
  ancestors : List Value
  deriving DecidableEq, Repr

structure Call extends Occurrence where
  phase : Phase
  deriving DecidableEq, Repr

/-- What a piece of client code gives back, and how it leaves the store and its memory. -/
structure Answer (σ ν : Type) where
  outcome : Except Fault Value
  store : Store
  memory : σ
  notes : List ν := []

/-- A callback's answer, with the list of ancestors as the callback left it. -/
structure Reply (σ ν : Type) extends Answer σ ν where
  ancestors : List Value

abbrev Callback (σ ν : Type) := Call → Store → σ → Reply σ ν

variable {σ ν : Type}

/-- Answer a call and change nothing. -/
def Call.answer (c : Call) (s : Store) (m : σ) (outcome : Except Fault Value) : Reply σ ν :=
  { outcome, store := s, memory := m, ancestors := c.ancestors }

/-- Calling a value behind which no callback stands. A function does nothing, and a class takes no arguments. -/
def Value.call (v : Value) : Callback σ ν := fun c s m =>
  c.answer s m <|
    match v with
    | .atom (.foreign .function) => .ok .null
    | .atom (.foreign .marker) => .error (.noArguments "Marker")
    | v => .error (.notCallable v.typeName)

end TreeWalk
