/-
  TreeWalk.Record — which values are nodes, and what fields they have.

  A record is a value that can hold fields. A node is a record whose field `type` holds a non-empty text; an object
  may inherit that field. Everything else is passed over. The names of a record are listed before its children are
  walked, while each field is read when its turn comes.

  An action is a record, too: in four fields of its own it keeps its text, its name, its class and its rank. None of these
  is a node or a list, so a walk that comes to them passes over them all. They are left out here: an action has no names,
  and nothing is found under any.
-/

import TreeWalk.Fault
import TreeWalk.Store

namespace TreeWalk.Value

/-- Whether a value can hold fields. A function can, but has none; the fields of an action are left out. -/
def isRecord : Value → Bool
  | .container k _ => k.hasFields
  | .atom (.action _) => true
  | .atom (.foreign .function) => true
  | _ => false

/-- What a record keeps under `type`, if it is a text. -/
def tag (s : Store) : Value → Option String
  | .container k r => if k.hasFields then (s.attribute? k r "type").bind text? else none
  | _ => none

def isNode (s : Store) (v : Value) : Bool :=
  match v.tag s with
  | some t => t ≠ ""
  | none => false

/-- The names of a value's own fields, in order. -/
def ownNames (s : Store) : Value → List String
  | .container k r => if k.hasFields then (s.cell r).fields.names else []
  | _ => []

/-- The field as it is now, or `none` if it is not there. Only a value with fields can be asked; a class answers for
    its own `type`. -/
def ownField (s : Store) (v : Value) (name : String) : Except Fault (Option Value) :=
  match v with
  | .container k r => if k.hasFields then .ok ((s.cell r).fields.get? name) else .error .noFields
  | .atom (.action _) => .ok none
  | .atom (.foreign .function) => .ok none
  | .atom (.foreign .marker) => .ok (if name = "type" then some (.text "Marker") else none)
  | _ => .error .noFields

theorem ownField_of_isRecord (s : Store) {v : Value} (h : v.isRecord) (name : String) :
    ∃ o, v.ownField s name = .ok o := by
  cases v with
  | atom a =>
    cases a with
    | action a => exact ⟨_, rfl⟩
    | foreign f =>
      cases f with
      | function => exact ⟨_, rfl⟩
      | _ => cases h
    | _ => cases h
  | tuple _ => cases h
  | container k r =>
    have hk : k.hasFields = true := h
    exact ⟨(s.cell r).fields.get? name, by simp only [ownField, hk, if_true]⟩

theorem isRecord_of_mem_ownNames {s : Store} {v : Value} {name : String} (h : name ∈ v.ownNames s) :
    v.isRecord := by
  cases v with
  | atom a => simp [ownNames] at h
  | tuple _ => simp [ownNames] at h
  | container k r =>
    by_cases hk : k.hasFields = true
    · exact hk
    · simp [ownNames, hk] at h

end TreeWalk.Value
