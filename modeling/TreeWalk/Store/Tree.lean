/-
  TreeWalk.Store.Tree — trees written down in one piece, and how they come into a store.
-/

import TreeWalk.Store

namespace TreeWalk

inductive Tree where
  | leaf (v : Value)
  | list (items : List Tree)
  | record (fields : List (String × Tree))
  deriving Inhabited

namespace Tree

mutual

/-- Build a tree in the store. A container takes its place before its contents do. -/
def plant : Tree → StateM Store Value
  | .leaf v => return v
  | .list items => do
    let r := (← get).size
    modify (·.push {})
    let vs ← plantAll items
    modify (·.setItems r vs)
    return .container .list r
  | .record fields => do
    let r := (← get).size
    modify (·.push {})
    let es ← plantFields fields
    modify (·.setFields r (Fields.ofList es))
    return .container .mapping r

def plantAll : List Tree → StateM Store (List Value)
  | [] => return []
  | t :: ts => return (← plant t) :: (← plantAll ts)

def plantFields : List (String × Tree) → StateM Store (List (String × Value))
  | [] => return []
  | (name, t) :: ts => return (name, ← plant t) :: (← plantFields ts)

end

end Tree

end TreeWalk
