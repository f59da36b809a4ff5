/-
  TreeWalk.Walk.Visit — walking a tree with a visitor.

  Before anything is called the settings are checked, then the visitor, then the reserved names are gathered; the
  first of these that fails ends the visit. So the reserved names are gone through twice before a walk, and not again
  during it.
-/

import TreeWalk.Walk.Settings
import TreeWalk.Walk.Visitor
import TreeWalk.Walk.Machine

namespace TreeWalk

variable {σ ν : Type}

/-- The version of this library. -/
def version : String := "0.1.0"

/-- What is called when a handle is called. -/
def Handle.toCallback : Handle (Callback σ ν) → Callback σ ν
  | .callback f => f
  | .value v => v.call

/-- A walker for two callbacks, which are not looked at before they are called; null stands for none. -/
def Walker.make (enter leave : Option (Handle (Callback σ ν))) (c : Settings) (debug : Bool) (s : Store) :
    Except Fault (Walker σ ν) := do
  let reserved ← c.reserved.names s
  let given := fun (h : Option (Handle (Callback σ ν))) => (h.filter (!·.isNull)).map Handle.toCallback
  return { enter := given enter, leave := given leave, reserved, logging := c.logging, colored := c.colored, debug }

/-- The walker of a visitor, if the settings and the visitor are accepted; without settings the usual ones apply. -/
def accept (settings : Option Settings) (visitor : Visitor (Callback σ ν)) (debug : Bool) (s : Store) :
    Except Fault (Walker σ ν) := do
  let c := settings.getD {}
  c.check s
  let (enter, leave) ← visitor.callbacks
  Walker.make enter leave c.spent debug s

/-- Walk a tree with a visitor, in at most `fuel` steps. -/
def visit (fuel : Nat) (debug : Bool) (settings : Option Settings) (visitor : Visitor (Callback σ ν)) (tree : Value)
    (store : Store) (memory : σ) : Run σ ν :=
  match accept settings visitor debug store with
  | .error e => ⟨some (.raised e), store, memory, []⟩
  | .ok w => w.walk fuel tree store memory

/-- What a walk comes to, if it is told how to read the memory it ended with. -/
def Run.answer {α : Type} (r : Run σ ν) (read : σ → α) : Option (Except Fault α) :=
  r.outcome.map fun
    | .returned _ => .ok (read r.memory)
    | .raised e => .error e

end TreeWalk
