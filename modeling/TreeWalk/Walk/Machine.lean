/-
  TreeWalk.Walk.Machine — the depth-first walk, one step at a time.

  A walk visits nodes. To visit a node is to call `enter` for it, to walk its children unless the signal says to skip
  them, and to call `leave` for it. To walk the children of a record is to go through its field names as they were when
  the walk came to it, except the reserved ones, and to read each field when its turn comes: a list or tuple is scanned,
  a node is visited, anything else is passed over. To scan is to look at one position after the other, at whatever
  stands there at that time; after a visit the scan goes on at the position its signal names, or at the next one, and it
  ends at a position outside the list. A signal to exit ends the whole walk, and so does a fault.

  A state has the store, the callbacks' memory, everything that happened so far (newest first), what the walk is about
  to do (`Focus`), and the work that is waiting (`Frame`, innermost first). `step` is total and does not move a walk
  that is done. `run` takes a number of steps: a walk whose callbacks never stop it may go on forever on a cyclic tree.
-/

import TreeWalk.Store.Subscript
import TreeWalk.Walk.Journal
import TreeWalk.Walk.Signal

namespace TreeWalk

variable {σ ν : Type}

/-- How a walk ends. -/
inductive Outcome where
  | returned (signal : Signal)
  | raised (fault : Fault)
  deriving DecidableEq, Repr

inductive Frame where
  /-- The field names of `node` that are still to be looked at; `trail` leads to `node`. -/
  | fields (node : Value) (trail : List Value) (names : List String)
  /-- The scan of what `parent` holds in `key`, at a position. -/
  | items (seq : Value) (key : String) (parent : Value) (trail : List Value) (position : Int)
  /-- A visit whose children are being walked, with the signal its `enter` gave. -/
  | visit (o : Occurrence) (signal : Signal)
  deriving DecidableEq, Repr

inductive Focus where
  | enter (o : Occurrence)
  | leave (o : Occurrence) (signal : Signal)
  /-- Go on with the innermost frame. -/
  | next
  /-- Hand the signal of a visit to the innermost frame. -/
  | back (signal : Signal)
  | done (outcome : Outcome)
  deriving DecidableEq, Repr

structure State (σ ν : Type) where
  store : Store
  memory : σ
  history : List (Entry σ ν)
  focus : Focus
  stack : List Frame

/-- The callbacks of a walk and its settings. -/
structure Walker (σ ν : Type) where
  enter : Option (Callback σ ν)
  leave : Option (Callback σ ν)
  reserved : List String
  logging : Bool
  colored : Bool
  /-- Whether records of the level that a walk logs at are kept. -/
  debug : Bool

namespace State

def finish (s : State σ ν) (o : Outcome) : State σ ν := { s with focus := .done o, stack := [] }

def log (s : State σ ν) (text : String) : State σ ν := { s with history := .log text :: s.history }

/-- Take over what a callback replied to a call. -/
def exchange (s : State σ ν) (c : Call) (reply : Reply σ ν) : State σ ν :=
  { s with store := reply.store, memory := reply.memory, history := .exchange c s.store reply :: s.history }

def outcome? (s : State σ ν) : Option Outcome :=
  match s.focus with
  | .done o => some o
  | _ => none

end State

namespace Walker

variable (w : Walker σ ν)

def logs : Bool := w.logging && w.debug

/-- Make a call: log it, let the callback answer, and log an answer that asks to exit. -/
def call (f : Callback σ ν) (c : Call) (s : State σ ν) : State σ ν × Except Fault (Signal × List Value) :=
  let s := if w.logs then s.log (c.record s.store w.colored) else s
  let reply := f c s.store s.memory
  let s := s.exchange c reply
  match reply.outcome with
  | .error e => (s, .error e)
  | .ok v =>
    let signal := Signal.ofValue v
    let s := if w.logs && signal.isExit s.store then s.log (c.exitRecord s.store w.colored) else s
    (s, .ok (signal, reply.ancestors))

/-- Walk the children of a node that was entered with `signal`. -/
def descend (o : Occurrence) (signal : Signal) (s : State σ ν) : State σ ν :=
  { s with
    focus := .next
    stack := .fields o.node o.ancestors (o.node.ownNames s.store) :: .visit o signal :: s.stack }

def enterStep (o : Occurrence) (s : State σ ν) : State σ ν :=
  match w.enter with
  | none => descend o .silent s
  | some f =>
    match w.call f { o with phase := .enter } s with
    | (s, .error e) => s.finish (.raised e)
    | (s, .ok (signal, ancestors)) =>
      if signal.isExit s.store then s.finish (.returned signal)
      else if signal.isSkip s.store then { s with focus := .leave { o with ancestors } signal }
      else descend { o with ancestors } signal s

/-- Without `leave`, the signal of `enter` is that of the visit. -/
def leaveStep (o : Occurrence) (signal : Signal) (s : State σ ν) : State σ ν :=
  match w.leave with
  | none => { s with focus := .back signal }
  | some f =>
    match w.call f { o with phase := .leave } s with
    | (s, .error e) => s.finish (.raised e)
    | (s, .ok (signal, _)) => { s with focus := .back signal }

/-- Look at the field `key` of `node`, with `names` to follow and `rest` waiting. -/
def fieldStep (node : Value) (trail : List Value) (key : String) (names : List String) (rest : List Frame)
    (s : State σ ν) : State σ ν :=
  let s := { s with focus := .next, stack := .fields node trail names :: rest }
  if key ∈ w.reserved then s
  else
    match node.ownField s.store key with
    | .error e => s.finish (.raised e)
    | .ok none => s
    | .ok (some v) =>
      if v = .null then s
      else if v.isSequence then { s with stack := .items v key node trail 0 :: s.stack }
      else if v.isNode s.store then { s with focus := .enter ⟨v, some key, none, trail ++ [node]⟩ }
      else s

/-- Look at a position of a list or tuple, with `rest` waiting. -/
def itemStep (seq : Value) (key : String) (parent : Value) (trail : List Value) (position : Int) (rest : List Frame)
    (s : State σ ν) : State σ ν :=
  if 0 ≤ position ∧ position < (seq.items s.store).length then
    match seq.element s.store position with
    | .error e => s.finish (.raised e)
    | .ok v =>
      if v.isNode s.store then
        { s with
          focus := .enter ⟨v, some key, some position.toNat, trail ++ [parent]⟩
          stack := .items seq key parent trail position :: rest }
      else { s with focus := .next, stack := .items seq key parent trail (position + 1) :: rest }
  else { s with focus := .next, stack := rest }

def nextStep (s : State σ ν) : State σ ν :=
  match s.stack with
  | [] => s.finish (.returned .silent)
  | .fields _ _ [] :: rest => { s with stack := rest }
  | .fields node trail (key :: names) :: rest => w.fieldStep node trail key names rest s
  | .items seq key parent trail position :: rest => itemStep seq key parent trail position rest s
  | .visit o signal :: rest => { s with focus := .leave o signal, stack := rest }

/-- A signal to exit ends the walk; otherwise the frame below goes on. -/
def backStep (signal : Signal) (s : State σ ν) : State σ ν :=
  match s.stack with
  | [] => s.finish (.returned signal)
  | frame :: rest =>
    if signal.isExit s.store then s.finish (.returned signal)
    else
      match frame with
      | .items seq key parent trail position =>
        { s with
          focus := .next
          stack := .items seq key parent trail ((signal.resume s.store).getD (position + 1)) :: rest }
      | _ => { s with focus := .next }

def step (s : State σ ν) : State σ ν :=
  match s.focus with
  | .enter o => w.enterStep o s
  | .leave o signal => w.leaveStep o signal s
  | .next => w.nextStep s
  | .back signal => backStep signal s
  | .done _ => s

/-- A root that is a node is visited; any other root only has its fields walked. Without callbacks there is nothing to
    do. -/
def start (tree : Value) (store : Store) (memory : σ) : State σ ν :=
  let s : State σ ν := { store, memory, history := [], focus := .next, stack := [] }
  if w.enter.isNone && w.leave.isNone then s.finish (.returned .silent)
  else if tree.isNode store then { s with focus := .enter ⟨tree, none, none, []⟩ }
  else { s with stack := [.fields tree [] (tree.ownNames store)] }

/-- At most so many steps. -/
def run : Nat → State σ ν → State σ ν
  | 0, s => s
  | n + 1, s =>
    match s.focus with
    | .done _ => s
    | _ => run n (w.step s)

end Walker

/-- A walk as seen from outside. -/
structure Run (σ ν : Type) where
  /-- `none` if the walk was not done within its steps. -/
  outcome : Option Outcome
  store : Store
  memory : σ
  /-- What happened, in order. -/
  journal : List (Entry σ ν)

def State.toRun (s : State σ ν) : Run σ ν := ⟨s.outcome?, s.store, s.memory, s.history.reverse⟩

/-- Walk a tree, in at most `fuel` steps. -/
def Walker.walk (w : Walker σ ν) (fuel : Nat) (tree : Value) (store : Store) (memory : σ) : Run σ ν :=
  (w.run fuel (w.start tree store memory)).toRun

end TreeWalk
