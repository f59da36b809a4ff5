/-
  TreeWalk.Store — where containers keep their contents.

  The store is a row of cells. A cell has the elements of a list, the fields of a record and the fields it inherits;
  which of them count is told by the kind of the container. New cells go to the end, so places never move. Reading a
  place that is not there gives an empty cell, and writing to it does nothing.
-/

import TreeWalk.Store.Fields
import TreeWalk.Value

namespace TreeWalk

structure Cell where
  items : List Value := []
  fields : Fields Value := ∅
  inherited : Fields Value := ∅
  deriving Inhabited

structure Store where
  cells : Array Cell
  deriving Inhabited

namespace Store

def empty : Store := ⟨#[]⟩

def size (s : Store) : Nat := s.cells.size

def cell (s : Store) (r : Ref) : Cell := s.cells[r]?.getD {}

def put (s : Store) (r : Ref) (c : Cell) : Store := ⟨s.cells.setIfInBounds r c⟩

/-- Add a cell; its place is the size so far. -/
def push (s : Store) (c : Cell) : Store := ⟨s.cells.push c⟩

@[simp] theorem size_put (s : Store) (r : Ref) (c : Cell) : (s.put r c).size = s.size := by simp [size, put]

@[simp] theorem size_push (s : Store) (c : Cell) : (s.push c).size = s.size + 1 := by simp [size, push]

theorem cell_put_same (s : Store) {r : Ref} (c : Cell) (h : r < s.size) : (s.put r c).cell r = c := by
  simp only [size] at h
  simp [cell, put, h]

theorem cell_put_ne (s : Store) {r q : Ref} (c : Cell) (h : q ≠ r) : (s.put r c).cell q = s.cell q := by
  simp [cell, put, Array.getElem?_setIfInBounds_ne h.symm]

@[simp] theorem cell_push_size (s : Store) (c : Cell) : (s.push c).cell s.size = c := by simp [cell, push, size]

theorem cell_push_lt (s : Store) {r : Ref} (c : Cell) (h : r < s.size) : (s.push c).cell r = s.cell r := by
  simp only [size] at h
  simp [cell, push, Array.getElem?_push, Nat.ne_of_lt h]

def setItems (s : Store) (r : Ref) (items : List Value) : Store := s.put r { s.cell r with items }

def setFields (s : Store) (r : Ref) (fields : Fields Value) : Store := s.put r { s.cell r with fields }

/-- The fields seen from outside: a container's own, and behind them what an object inherits. -/
def attribute? (s : Store) (k : Kind) (r : Ref) (name : String) : Option Value :=
  match (s.cell r).fields.get? name with
  | some v => some v
  | none => if k = .object then (s.cell r).inherited.get? name else none

end Store

namespace Value

/-- The elements of a list or tuple as they are now. -/
def items (s : Store) : Value → List Value
  | .atom _ => []
  | .tuple vs => vs
  | .container k r => if k.isList then (s.cell r).items else []

/-- Lists and mappings are true when they are not empty, whatever fields a list has; objects always. -/
def truthy (s : Store) : Value → Bool
  | .atom a => a.truthy
  | .tuple vs => !vs.isEmpty
  | .container k r =>
    if k.isList then !(s.cell r).items.isEmpty
    else if k.isMapping then !(s.cell r).fields.isEmpty
    else true

end Value

end TreeWalk
