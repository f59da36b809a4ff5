/-
  TreeWalk.Estree.Console — removing calls of `console` from a syntax tree while it is being walked.
-/

import TreeWalk.Store.Subscript
import TreeWalk.Walk.Call

namespace TreeWalk.Estree.Console

variable {σ ν : Type}

/-- The fields of what a look-up found, where anything that counts as false stands for an empty mapping. -/
def lookupsOrEmpty (s : Store) (v : Option Value) : Except Fault (Fields Value) :=
  match v with
  | some v => if v.truthy s then v.lookups s else .ok ∅
  | none => .ok ∅

/-- Whether a node is a statement that calls a method of `console`. -/
def isCall (s : Store) (node : Value) : Except Fault Bool := do
  let fields ← node.lookups s
  let expression ← lookupsOrEmpty s (fields.get? "expression")
  let callee ← lookupsOrEmpty s (expression.get? "callee")
  let type ← node.subscript s "type"
  if type = .text "ExpressionStatement" ∧ expression.get? "type" = some (.text "CallExpression") then
    let target ← lookupsOrEmpty s (callee.get? "object")
    return target.get? "name" = some (.text "console")
  else return false

/-- Remove what stands at a position of a field of the innermost ancestor. -/
def removeFromParent (s : Store) (ancestors : List Value) (key : Option String) (i : Nat) : Except Fault Store :=
  match ancestors.getLast?, key with
  | some parent, some key => do
    let siblings ← parent.subscript s key
    siblings.deleteItem s i
  | _, _ => .error .outOfRange

/-- Remove a node from its list if it is a call of `console`, and go on with what then stands at its position. -/
def strip : Callback σ ν := fun c s m =>
  match c.index with
  | none => c.answer s m (.ok .null)
  | some i =>
    match isCall s c.node with
    | .error e => c.answer s m (.error e)
    | .ok false => c.answer s m (.ok .null)
    | .ok true =>
      match removeFromParent s c.ancestors c.key i with
      | .error e => c.answer s m (.error e)
      | .ok t => c.answer t m (.ok (.tuple [.action .skip, .int i]))

end TreeWalk.Estree.Console
