/-
  TreeWalk.Walk.Journal — what a walk leaves behind: the calls it made and the records it logged.

  A record names the phase, the node by its type, the field and position that led to it, and the number of its
  ancestors.
-/

import TreeWalk.Record
import TreeWalk.Walk.Call

namespace TreeWalk

variable {σ ν : Type}

/-- The text in yellow, for a terminal. -/
def yellow (text : String) : String := "\x1b[33m" ++ text ++ "\x1b[39m"

/-- A node is named by its type, which may be coloured; a value without one is only called a node. -/
def Value.label (s : Store) (colored : Bool) (v : Value) : String :=
  match v.tag s with
  | some t => if t = "" then "node" else "node (" ++ (if colored then yellow t else t) ++ ")"
  | none => "node"

namespace Call

/-- The record logged before a call. -/
def record (s : Store) (colored : Bool) (c : Call) : String :=
  c.phase.name ++ " " ++ c.node.label s colored
    ++ " key=" ++ (match c.key with | some k => Text.quote k | none => "None")
    ++ " index=" ++ (match c.index with | some i => toString i | none => "None")
    ++ " depth=" ++ toString c.ancestors.length

/-- The record logged after a call that asked to exit. -/
def exitRecord (s : Store) (colored : Bool) (c : Call) : String :=
  "exit requested on " ++ c.phase.name ++ " " ++ c.node.label s colored

end Call

/-- What happened: a record was logged, or a callback was called in a store and replied. -/
inductive Entry (σ ν : Type) where
  | log (text : String)
  | exchange (call : Call) (before : Store) (reply : Reply σ ν)

end TreeWalk
