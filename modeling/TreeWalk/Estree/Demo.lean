/-
  TreeWalk.Estree.Demo — a small change to the sample program, and a report on it.

  The calls of `console` are removed, the function is renamed, and the report says what is left.
-/

import TreeWalk.Estree.Console
import TreeWalk.Estree.Sample
import TreeWalk.Search
import TreeWalk.Text.Json

namespace TreeWalk.Estree.Demo

def isCall : Predicate Unit Unit := fun node s m =>
  { outcome := .ok (.atom (.bool (node.tag s = some "CallExpression"))), store := s, memory := m }

/-- The field of a record, or null. -/
def field (s : Store) (v : Value) (name : String) : Value :=
  match v.ownField s name with
  | .ok (some w) => w
  | _ => .null

def fuel : Nat := 100000

end TreeWalk.Estree.Demo
