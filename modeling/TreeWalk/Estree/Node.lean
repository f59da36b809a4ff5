/-
  TreeWalk.Estree.Node — the nodes of JavaScript syntax trees as parsers emit them.

  Every node records its type and the offsets in the source text at which it starts and ends.
-/

import TreeWalk.Store.Tree

namespace TreeWalk.Estree

def text (s : String) : Tree := .leaf (.text s)

def offset (n : Nat) : Tree := .leaf (.int n)

def flag (b : Bool) : Tree := .leaf (.atom (.bool b))

/-- A node of a type, between two offsets, with its other fields. -/
def node (type : String) (start stop : Nat) (fields : List (String × Tree)) : Tree :=
  .record (("type", text type) :: ("start", offset start) :: ("end", offset stop) :: fields)

structure Literal where
  start : Nat
  stop : Nat
  value : Value
  /-- The text of the literal in the source. -/
  raw : String

def Literal.toTree (l : Literal) : Tree := node "Literal" l.start l.stop [("value", .leaf l.value), ("raw", text l.raw)]

end TreeWalk.Estree
