/-
  TreeWalk.Store.Subscript — reading a value by name or by position, and removing from a list by position.

  Mappings are read by name; lists and tuples know positions only, and other values neither.
-/

import TreeWalk.Fault
import TreeWalk.Store

namespace TreeWalk.Value

/-- The field of a mapping, which must be there. -/
def subscript (s : Store) (v : Value) (name : String) : Except Fault Value :=
  match v with
  | .container k r =>
    if k.isMapping then
      match (s.cell r).fields.get? name with
      | some w => .ok w
      | none => .error (.missingName name)
    else if k.isList then .error .notAPosition
    else .error (.notSubscriptable k.typeName)
  | v => .error (.notSubscriptable v.typeName)

/-- What stands at a position, which must be there. Positions below zero count from the end. -/
def pick (typeName : String) (vs : List Value) (position : Int) : Except Fault Value :=
  match if position < 0 then position + vs.length else position with
  | .ofNat i =>
    match vs[i]? with
    | some v => .ok v
    | none => .error (.noElement typeName)
  | .negSucc _ => .error (.noElement typeName)

/-- The element of a list or tuple at a position. -/
def element (s : Store) (v : Value) (position : Int) : Except Fault Value :=
  match v with
  | .tuple vs => pick "tuple" vs position
  | .container k r =>
    if k.isList then pick "list" (s.cell r).items position else .error (.notSubscriptable k.typeName)
  | v => .error (.notSubscriptable v.typeName)

theorem pick_of_getElem? (typeName : String) {vs : List Value} {i : Nat} {v : Value} (h : vs[i]? = some v) :
    pick typeName vs i = .ok v := by
  have hi : ¬ (i : Int) < 0 := by omega
  simp only [pick, hi, if_false]
  show (match vs[i]? with | some v => Except.ok v | none => .error (Fault.noElement typeName)) = .ok v
  rw [h]

/-- An element that stands in a list or tuple is found at its position. -/
theorem element_of_getElem? {s : Store} {v w : Value} {i : Nat} (h : (v.items s)[i]? = some w) :
    v.element s i = .ok w := by
  cases v with
  | atom a => cases h
  | tuple vs => exact pick_of_getElem? "tuple" h
  | container k r =>
    cases hk : k.isList with
    | false => simp [items, hk] at h
    | true =>
      simp only [items, hk, if_true] at h
      simp only [element, hk, if_true]
      exact pick_of_getElem? "list" h

/-- The fields of a mapping, for look-ups that may fail to find a name. -/
def lookups (s : Store) (v : Value) : Except Fault (Fields Value) :=
  match v with
  | .container k r => if k.isMapping then .ok (s.cell r).fields else .error (.noLookup k.typeName)
  | v => .error (.noLookup v.typeName)

/-- Remove the element at a position of a list. -/
def deleteItem (s : Store) (v : Value) (i : Nat) : Except Fault Store :=
  match v with
  | .container k r =>
    if k.isList then
      if i < (s.cell r).items.length then .ok (s.setItems r ((s.cell r).items.eraseIdx i)) else .error .outOfRange
    else .error (.noItemDeletion k.typeName)
  | v => .error (.noItemDeletion v.typeName)

end TreeWalk.Value
