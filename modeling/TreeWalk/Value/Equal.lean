/-
  TreeWalk.Value.Equal — equality as a collection of distinct items sees it.

  Numbers and truth values are equal when they are the same number, whatever their type: one, true, 1.0 and (1+0j) are
  one item. What is not a number differs from itself. Tuples are compared element by element, and objects by place.
  Lists, mappings and byte arrays cannot be items at all.
-/

import TreeWalk.Fault
import TreeWalk.Store
import TreeWalk.Value.Number

namespace TreeWalk

namespace Atom

/-- The number an atom is, if it is one. -/
def number? : Atom → Option Number
  | bool b => some (.ofInt (if b then 1 else 0))
  | int i => some (.ofInt i)
  | float t => some (.ofReal t)
  | complex t => some (.ofComplex t)
  | _ => none

def equals (a b : Atom) : Bool :=
  match a.number?, b.number? with
  | some x, some y => x.same y
  | none, none => a = b
  | _, _ => false

def unhashable? : Atom → Option String
  | byteArray d => some (byteArray d).typeName
  | foreign .set => some Foreign.set.typeName
  | foreign .emptySet => some Foreign.emptySet.typeName
  | _ => none

end Atom

namespace Value

mutual

def equals : Value → Value → Bool
  | .atom a, .atom b => a.equals b
  | .tuple vs, .tuple ws => equalsAll vs ws
  | .container k r, .container l q => k = l && r = q
  | _, _ => false

def equalsAll : List Value → List Value → Bool
  | [], [] => true
  | v :: vs, w :: ws => equals v w && equalsAll vs ws
  | _, _ => false

end

mutual

/-- The type of the first part of a value that keeps it from being an item of a collection of distinct items. -/
def unhashable? : Value → Option String
  | .atom a => a.unhashable?
  | .tuple vs => unhashableAll? vs
  | .container k _ => if k = .object then none else some k.typeName

def unhashableAll? : List Value → Option String
  | [] => none
  | v :: vs =>
    match unhashable? v with
    | some t => some t
    | none => unhashableAll? vs

end

/-- The items in order, without those equal to an earlier one. -/
def distinct : List Value → List Value
  | [] => []
  | v :: vs => v :: (distinct vs).filter fun w => !equals v w

/-- The distinct items of a list, if all of them can be items. -/
def freeze (vs : List Value) : Except Fault (List Value) :=
  match unhashableAll? vs with
  | some t => .error (.unhashable t)
  | none => .ok (distinct vs)

/-- What a value gives when it is gone through item by item. -/
def iterate (s : Store) : Value → Except Fault (List Value)
  | .text t => .ok (t.toList.map fun c => .text c.toString)
  | .atom (.bytes d) => .ok (d.map fun b => .int b.toNat)
  | .atom (.byteArray d) => .ok (d.map fun b => .int b.toNat)
  | .atom (.foreign f) => (f.numbers?.map (·.map .int)).elim (.error (.notIterable f.typeName)) .ok
  | .atom a => .error (.notIterable a.typeName)
  | .tuple vs => .ok vs
  | .container k r =>
    if k.isList then .ok (s.cell r).items
    else if k.isMapping then .ok ((s.cell r).fields.names.map .text)
    else .error (.notIterable k.typeName)

end Value

end TreeWalk
