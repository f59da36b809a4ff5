/-
  TreeWalk.Walk.Recorder — a visitor that keeps the calls it receives.

  It may be told what to return for nodes of a type. It reads the type of a node as that of a mapping, so it fails on
  any other node, after keeping the call.
-/

import TreeWalk.Record
import TreeWalk.Store.Subscript
import TreeWalk.Walk.Visitor
import TreeWalk.Walk.Call

namespace TreeWalk

structure Recorder where
  onEnter : Fields Value := ∅
  onLeave : Fields Value := ∅

namespace Recorder

variable {ν : Type}

def planned (r : Recorder) : Phase → Fields Value
  | .enter => r.onEnter
  | .leave => r.onLeave

/-- Keep the call, and return what is planned for the type of its node. -/
def record (r : Recorder) : Callback (List Call) ν := fun c s calls =>
  c.answer s (calls ++ [c]) <|
    (c.node.subscript s "type").map fun t => (t.text?.bind (r.planned c.phase).get?).getD .null

/-- The recorder as a visitor. -/
def visitor (r : Recorder) : Visitor (Callback (List Call) ν) :=
  .object "Recorder" (some (.callback r.record)) (some (.callback r.record)) none

/-- The phase and the type of each call. -/
def pairs (s : Store) (calls : List Call) : List (Phase × Option String) :=
  calls.map fun c => (c.phase, c.node.tag s)

/-- The types of the nodes called for in one phase. -/
def tags (s : Store) (phase : Phase) (calls : List Call) : List (Option String) :=
  (calls.filter (·.phase = phase)).map (·.node.tag s)

end Recorder

end TreeWalk
