/-
  TreeWalk.Value.Actions — the action that a value or a name stands for.
-/

import TreeWalk.Fault
import TreeWalk.Value.Spelling

namespace TreeWalk

/-- An action stands for itself, and a text for the action written so. -/
def Value.toAction (s : Store) (v : Value) : Except Fault Action :=
  match v with
  | .action a => .ok a
  | .text t => (Action.ofWord? t).elim (.error (.notAnAction (v.spell s))) .ok
  | _ => .error (.notAnAction (v.spell s))

/-- The action of a name. -/
def Action.named (name : String) : Except Fault Action := (ofName? name).elim (.error (.missingName name)) .ok

end TreeWalk
