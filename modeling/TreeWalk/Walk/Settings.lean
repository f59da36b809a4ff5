/-
  TreeWalk.Walk.Settings — which fields a walk leaves alone, and whether it logs.

  Reserved names are given as a collection of any kind, as an iterator, or as any other value. Settings are sound when
  the reserved names are not one text and every item is a non-empty text; every other item is reported, in the order of
  the items' spellings. Settings are never changed: `reserving` makes new ones. But an iterator gives its items to the
  first who goes through it, be that for a report, for new settings or for a walk, and nothing is left for the next one
  (`spent`).
-/

import TreeWalk.Value.Equal
import TreeWalk.Value.Spelling

namespace TreeWalk

/-- What is given as the reserved names. -/
inductive Reserved where
  /-- A collection, by what going through it gives. -/
  | items (vs : List Value)
  /-- An iterator, by the items it has not given yet. -/
  | once (vs : List Value)
  | value (v : Value)
  deriving DecidableEq, Repr

namespace Reserved

def iterate (s : Store) : Reserved → Except Fault (List Value)
  | .items vs => .ok vs
  | .once vs => .ok vs
  | .value v => v.iterate s

/-- What is left for the next one to go through. -/
def spent : Reserved → Reserved
  | .once _ => .once []
  | r => r

/-- A collection in which equal items are one item. -/
def ofDistinct (vs : List Value) : Except Fault Reserved := (Value.freeze vs).map .items

/-- The names a walk leaves alone: the texts among the distinct items. -/
def names (s : Store) (r : Reserved) : Except Fault (List String) := do
  let vs ← r.iterate s
  let vs ← Value.freeze vs
  return vs.filterMap Value.text?

end Reserved

structure Settings where
  reserved : Reserved := .items [.text "data", .text "position"]
  logging : Bool := false
  colored : Bool := false
  deriving DecidableEq, Repr

namespace Settings

/-- Logs every call. -/
def verbose (colored : Bool) : Settings := { logging := true, colored }

/-- The same settings with more reserved names. -/
def reserving (s : Store) (c : Settings) (names : List Value) : Except Fault Settings := do
  let vs ← c.reserved.iterate s
  let vs ← Value.freeze vs
  let ws ← Value.freeze names
  return { c with reserved := .items (Value.distinct (vs ++ ws)) }

/-- The settings after someone went through the reserved names. -/
def spent (c : Settings) : Settings := { c with reserved := c.reserved.spent }

/-- Items in the order of their spellings; items spelled alike stay as they stand. -/
def sorted (s : Store) (vs : List Value) : List Value := vs.mergeSort fun v w => v.spell s ≤ w.spell s

/-- A non-empty text. -/
def isName : Value → Bool
  | .text t => t ≠ ""
  | _ => false

def complaint (s : Store) (v : Value) : String := "reserved key " ++ v.spell s ++ " must be a non-empty string"

/-- The items that are not names, when all items are gone through in order. -/
def others (s : Store) (vs : List Value) : List Value := (sorted s vs).filter fun v => !isName v

def complaints (s : Store) (vs : List Value) : List String := (others s vs).map (complaint s)

/-- What is wrong with the settings. -/
def problems (s : Store) (c : Settings) : Except Fault (List String) :=
  match c.reserved with
  | .value (.text _) => .ok ["reserved_keys must be a collection of names, not a string"]
  | r => do
    let vs ← r.iterate s
    return complaints s vs

/-- Refuses settings in which something is wrong. -/
def check (s : Store) (c : Settings) : Except Fault Unit := do
  match ← c.problems s with
  | [] => return ()
  | ps => throw (.badConfig ps)

end Settings

end TreeWalk
