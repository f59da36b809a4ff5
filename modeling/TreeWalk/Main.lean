/-
  TreeWalk.Main — prints the report of the demonstration.
-/

import TreeWalk.Estree.Demo
