/-
  TreeWalk.Walk.Phase — a node is entered before its children are walked, and left after them.
-/

namespace TreeWalk

inductive Phase where
  | enter
  | leave
  deriving DecidableEq, Repr

def Phase.name : Phase → String
  | enter => "enter"
  | leave => "leave"

end TreeWalk
