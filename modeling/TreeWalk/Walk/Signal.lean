/-
  TreeWalk.Walk.Signal — what the walk reads off a callback's return value.

  A callback may return an action, a position to go on at, a list or tuple of both, or anything else. A list or
  tuple is a signal as it stands: its first element is the action and its second, if it is a whole number, the
  position. A bare whole number stands for "go on, at this position"; any other value for itself as the action.

  A returned list stays the list it is: its elements are read when the walk consults the signal, not when the
  callback returns.
-/

import TreeWalk.Store

namespace TreeWalk

inductive Signal where
  /-- A list in the store. -/
  | live (kind : Kind) (ref : Ref)
  | fixed (items : List Value)
  deriving DecidableEq, Repr

namespace Signal

/-- No action and no position. -/
def silent : Signal := .fixed []

def items (s : Store) : Signal → List Value
  | .live _ r => (s.cell r).items
  | .fixed vs => vs

/-- The first element, or null. -/
def action (s : Store) (g : Signal) : Value := (g.items s).headD .null

/-- The second element, if it is a whole number. -/
def resume (s : Store) (g : Signal) : Option Int := ((g.items s)[1]?).bind Value.int?

def isExit (s : Store) (g : Signal) : Bool := g.action s = .action .exit

def isSkip (s : Store) (g : Signal) : Bool := g.action s = .action .skip

section

variable {g : Signal} {s t : Store} (h : g.items t = g.items s)

include h

theorem isExit_of_items : g.isExit t = g.isExit s := by rw [isExit, isExit, action, action, h]

theorem isSkip_of_items : g.isSkip t = g.isSkip s := by rw [isSkip, isSkip, action, action, h]

theorem resume_of_items : g.resume t = g.resume s := by rw [resume, resume, h]

end

/-- The signal a return value stands for. -/
def ofValue : Value → Signal
  | .tuple vs => .fixed vs
  | .container k r => if k.isList then .live k r else .fixed [.container k r]
  | .int i => .fixed [.action .proceed, .int i]
  | .atom a => .fixed [.atom a]

def toValue : Signal → Value
  | .live k r => .container k r
  | .fixed vs => .tuple vs

/-- A list or tuple is its own signal. -/
theorem toValue_ofValue {v : Value} (h : v.isSequence) : (ofValue v).toValue = v := by
  cases v with
  | atom a => cases h
  | tuple vs => rfl
  | container k r =>
    have hk : k.isList = true := h
    simp only [ofValue, hk, if_true, toValue]

end Signal

end TreeWalk
