/-
  TreeWalk.Walk.Visitor — the shapes in which callbacks are handed in.

  A visitor is nothing, a mapping that may hold `enter` and `leave`, or an object that may have them as attributes
  and may be callable itself. An object that has neither must be callable: then it is the `enter` callback. What
  stands where a callback is expected must be null or callable.
-/

import TreeWalk.Fault
import TreeWalk.Store

namespace TreeWalk

/-- What stands where a callback is expected: a callback, or a value. -/
inductive Handle (φ : Type) where
  | callback (f : φ)
  | value (v : Value)

inductive Visitor (φ : Type) where
  | nothing
  | mapping (enter leave : Option (Handle φ))
  | object (typeName : String) (enter leave self : Option (Handle φ))

variable {φ : Type}

namespace Handle

def isNull : Handle φ → Bool
  | .value v => v = .null
  | .callback _ => false

def isCallable : Handle φ → Bool
  | .value v => v.isCallable
  | .callback _ => true

def typeName : Handle φ → String
  | .value v => v.typeName
  | .callback _ => "function"

end Handle

namespace Visitor

/-- A callback by itself. -/
def function (f : φ) : Visitor φ := .object "function" none none (some (.callback f))

/-- A value as a visitor. -/
def ofValue (s : Store) : Value → Visitor φ
  | .null => .nothing
  | .container k r =>
    let member := fun name => (s.attribute? k r name).map Handle.value
    if k.isMapping then .mapping (member "enter") (member "leave")
    else if k.hasFields then .object k.typeName (member "enter") (member "leave") none
    else .object k.typeName none none none
  | v => .object v.typeName none none (if v.isCallable then some (.value v) else none)

/-- One member of a visitor: null counts as missing, and anything else must be callable. -/
def member (phase : Phase) (h : Option (Handle φ)) : Except Fault (Option (Handle φ)) :=
  match h with
  | none => .ok none
  | some h =>
    if h.isNull then .ok none
    else if h.isCallable then .ok (some h)
    else .error (.badCallback phase h.typeName)

def members (enter leave : Option (Handle φ)) : Except Fault (Option (Handle φ) × Option (Handle φ)) := do
  let enter ← member .enter enter
  let leave ← member .leave leave
  return (enter, leave)

/-- The `enter` and `leave` callbacks of a visitor. -/
def callbacks : Visitor φ → Except Fault (Option (Handle φ) × Option (Handle φ))
  | .nothing => .ok (none, none)
  | .mapping enter leave => members enter leave
  | .object typeName enter leave self =>
    if enter.isSome || leave.isSome then members enter leave
    else
      match self with
      | some h => .ok (some h, none)
      | none => .error (.badVisitor typeName)

end Visitor

end TreeWalk
