/-
  TreeWalk.Estree.Array — array literals laid out as their source would be: the texts of the elements in brackets,
  separated by a comma and a space.
-/

import TreeWalk.Estree.Node
import TreeWalk.Value.Spelling

namespace TreeWalk.Estree

structure ArrayLiteral where
  start : Nat
  stop : Nat
  elements : List Literal

namespace ArrayLiteral

/-- Literals whose texts follow each other from `start` on, two characters apart. -/
def spread (s : Store) (start : Nat) : List Value → List Literal
  | [] => []
  | v :: vs =>
    let raw := v.plainText s
    ⟨start, start + raw.length, v, raw⟩ :: spread s (start + raw.length + 2) vs

/-- The closing bracket follows the last element, or the opening bracket. -/
def ofValues (s : Store) (vs : List Value) : ArrayLiteral :=
  let elements := spread s 1 vs
  ⟨0, (elements.getLast?.map (·.stop)).getD 1 + 1, elements⟩

def toTree (a : ArrayLiteral) : Tree :=
  node "ArrayExpression" a.start a.stop [("elements", .list (a.elements.map Literal.toTree))]

end ArrayLiteral

end TreeWalk.Estree
