/-
  TreeWalk.Script.Rule — what a scripted callback may do, written down.

  A rule says when it applies, what is done then, and what is returned. What a rule makes, it makes anew each time it
  is played: such values are given as recipes, which may refer to the call that is being answered.
-/

import TreeWalk.Script.World

namespace TreeWalk.Script

/-- Makes something, for the call that is being answered. -/
abbrev Recipe (α : Type) := Call → Making α

/-- A node that a call names. -/
inductive Target where
  | node
  | parent
  /-- An ancestor by position, from the root or, below zero, from the end. -/
  | ancestor (i : Int)

def Target.find (t : Target) (c : Call) : Value :=
  match t with
  | .node => c.node
  | .parent => c.ancestors.getLast?.getD .null
  | .ancestor (.ofNat i) => c.ancestors[i]?.getD .null
  | .ancestor (.negSucc i) => c.ancestors.reverse[i]?.getD .null

inductive Condition where
  | tag (t : Option String)
  | key (k : Option String)
  | index (i : Option Int)
  /-- The number of the node. -/
  | number (n : Int)
  | depth (n : Int)
  /-- The number of the call. -/
  | call (n : Int)
  | has (name : String)
  /-- The node has the field, and its picture passes the test. -/
  | field (name : String) (test : Picture → Bool)

def fieldOf (s : Store) (c : Call) (name : String) : Option Value :=
  match c.node.ownField s name with
  | .ok v => v
  | .error _ => none

/-- Whether a condition holds of call number `n`. -/
def Condition.holds (s : Store) (n : Nat) (c : Call) : Condition → Bool
  | .tag t => c.node.tag s = t
  | .key k => c.key = k
  | .index i => c.index.map Int.ofNat = i
  | .number r => c.node.ref?.map Int.ofNat = some r
  | .depth d => c.ancestors.length = d
  | .call k => n = k
  | .has name => (fieldOf s c name).isSome
  | .field name test => (fieldOf s c name).any fun v => test (v.picture s)

/-- A position in a list: fixed, or relative to the index of the call. -/
inductive Position where
  | nowhere
  | at (i : Int)
  | beside (k : Int)

def Position.find (p : Position) (c : Call) : Option Int :=
  match p with
  | .nowhere => none
  | .at i => some i
  | .beside k => c.index.map fun i => i + k

inductive ListEdit where
  /-- Keep so many elements from the front or, below zero, all but so many. -/
  | truncate (length : Int)
  | reverse
  | push (value : Recipe Value)
  /-- Before a position; outside the list, at its nearer end. -/
  | insert (p : Position) (value : Recipe Value)
  /-- At a position of the list. -/
  | replace (p : Position) (value : Recipe Value)
  | delete (p : Position)

/-- The field of a target: the one that leads to the node, or another. -/
inductive FieldChoice where
  | key
  | named (name : Option String)

def FieldChoice.find (f : FieldChoice) (c : Call) : Option String :=
  match f with
  | .key => c.key
  | .named name => name

inductive Op where
  | raise (kind message : String)
  | pushAncestor (value : Recipe Value)
  | popAncestor
  | clearAncestors
  | count (on : Target)
  /-- A walk within the walk. -/
  | visit (on : Target) (visitor : Recipe (Visitor (Callback World Event)))
      (settings : Recipe (Except Fault (Option Settings)))
  | setField (on : Target) (field : FieldChoice) (value : Recipe Value)
  | deleteField (on : Target) (field : FieldChoice)
  | edit (on : Target) (field : FieldChoice) (e : ListEdit)

structure Rule where
  /-- All of them must hold. -/
  conditions : List Condition := []
  /-- How often the rule may be played. -/
  max : Option Nat := none
  ops : List Op := []
  /-- What is returned. -/
  value : Recipe Value

end TreeWalk.Script
