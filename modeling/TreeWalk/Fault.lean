/-
  TreeWalk.Fault — why a walk, a look-up or a configuration fails, and in which words it says so.
-/

import TreeWalk.Text.Quoted
import TreeWalk.Walk.Phase

namespace TreeWalk

inductive Fault where
  /-- Something that cannot be called was given as a callback. -/
  | notCallable (typeName : String)
  /-- A class that takes no arguments was called with some. -/
  | noArguments (className : String)
  | notIterable (typeName : String)
  | unhashable (typeName : String)
  /-- A field was read of something that has none. -/
  | noFields
  | notSubscriptable (typeName : String)
  /-- A list was indexed by a name. -/
  | notAPosition
  | noItemDeletion (typeName : String)
  /-- A list or tuple was read at a position it does not have. -/
  | noElement (typeName : String)
  | outOfRange
  | noLookup (typeName : String)
  | missingName (name : String)
  /-- No action is written this way. -/
  | notAnAction (spelling : String)
  | badConfig (problems : List String)
  | badVisitor (typeName : String)
  | badCallback (phase : Phase) (typeName : String)
  | frozenField (name : String)
  /-- Raised by a callback of its own accord. -/
  | raised (kind message : String)
  deriving DecidableEq, Repr

namespace Fault

def message : Fault → String
  | notCallable t => s!"'{t}' object is not callable"
  | noArguments c => s!"{c}() takes no arguments"
  | notIterable t => s!"'{t}' object is not iterable"
  | unhashable t => s!"unhashable type: '{t}'"
  | noFields => "vars() argument must have __dict__ attribute"
  | notSubscriptable t => s!"'{t}' object is not subscriptable"
  | notAPosition => "list indices must be integers or slices, not str"
  | noItemDeletion t => s!"'{t}' object doesn't support item deletion"
  | noElement t => s!"{t} index out of range"
  | outOfRange => "list assignment index out of range"
  | noLookup t => s!"'{t}' object has no attribute 'get'"
  | missingName n => n
  | notAnAction s => s!"{s} is not a valid Action"
  | badConfig ps => "Invalid configuration: " ++ "; ".intercalate ps
  | badVisitor t => s!"visitor must be a callable or have enter/leave callbacks, got {t}"
  | badCallback p t => "visitor." ++ p.name ++ s!" must be callable, got {t}"
  | frozenField n => "cannot assign to field " ++ Text.quote n
  | raised _ m => m

end Fault

end TreeWalk
