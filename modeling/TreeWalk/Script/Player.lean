/-
  TreeWalk.Script.Player — callbacks and predicates that follow rules.

  A call beyond the limit fails. Every other call gets the next number and is told as an event; then the first rule that
  applies and is not used up is played. A fault ends the playing, and what was done before it stays done.
-/

import TreeWalk.Script.Rule
import TreeWalk.Search

namespace TreeWalk.Script

/-- What a call may change while it is being answered, and the events so far. -/
structure Scene extends Workshop where
  ancestors : List Value
  events : List Event

abbrev Play := ExceptT Fault (StateM Scene)

def tell (es : List Event) : Play Unit := modify fun s => { s with events := s.events ++ es }

/-- Make something for a call, which sees the ancestors as they are now. -/
def prepare {α : Type} (c : Call) (r : Recipe α) : Play α := do
  let s ← get
  let (a, w) := (r { c with ancestors := s.ancestors }).run s.toWorkshop
  set { s with toWorkshop := w }
  return a

def setStore (store : Store) : Play Unit := modify fun s => { s with store }

/-- The place of a value whose fields may be changed. -/
def holder? : Value → Option Ref
  | .container .mapping r => some r
  | .container .object r => some r
  | .container .listObject r => some r
  | _ => none

/-- The place of a value whose elements may be changed. -/
def list? : Value → Option Ref
  | .container .list r => some r
  | .container .listObject r => some r
  | _ => none

/-- A position inside a list. -/
def inside (i : Option Int) (length : Nat) : Option Nat :=
  match i with
  | some (.ofNat n) => if n < length then some n else none
  | _ => none

def ListEdit.play (e : ListEdit) (c : Call) (r : Ref) : Play Unit := do
  let items := ((← get).store.cell r).items
  let change := fun (f : List Value → List Value) (store : Store) => store.setItems r (f (store.cell r).items)
  match e with
  | .truncate (.ofNat n) => setStore (change (List.take n) (← get).store)
  | .truncate (.negSucc n) => setStore (change (List.take (items.length - (n + 1))) (← get).store)
  | .reverse => setStore (change List.reverse (← get).store)
  | .push value =>
    let v ← prepare c value
    setStore (change (· ++ [v]) (← get).store)
  | .insert p value =>
    if let some i := p.find c then
      let v ← prepare c value
      setStore (change (·.insertIdx (min i.toNat items.length) v) (← get).store)
  | .replace p value =>
    if let some i := inside (p.find c) items.length then
      let v ← prepare c value
      setStore (change (·.set i v) (← get).store)
  | .delete p =>
    if let some i := inside (p.find c) items.length then
      setStore (change (·.eraseIdx i) (← get).store)

/-- Run a walk within the walk. -/
def nested (target : Value) (settings : Option Settings) (visitor : Visitor (Callback World Event)) : Play Unit := do
  let s ← get
  let run := TreeWalk.visit s.world.fuel s.world.debug settings visitor target s.store s.world
  set { s with store := run.store, world := run.memory, events := s.events ++ events run.journal }
  match run.outcome with
  | some (.raised e) => throw e
  | _ => return ()

def Op.play (op : Op) (c : Call) : Play Unit := do
  let c := { c with ancestors := (← get).ancestors }
  match op with
  | .raise kind message => throw (.raised kind message)
  | .pushAncestor value =>
    let v ← prepare c value
    modify fun s => { s with ancestors := s.ancestors ++ [v] }
  | .popAncestor => modify fun s => { s with ancestors := s.ancestors.dropLast }
  | .clearAncestors => modify fun s => { s with ancestors := [] }
  | .count on =>
    let s ← get
    let run : Run Nat Event := countAll s.world.fuel s.world.debug none (on.find c) s.store
    tell (events run.journal)
    match run.answer id with
    | some (.ok n) => tell [.counted n]
    | some (.error e) => throw e
    | none => return ()
  | .visit on visitor settings =>
    let visitor ← prepare c visitor
    let settings ← prepare c settings
    match settings with
    | .ok settings => nested (on.find c) settings visitor
    | .error e => throw e
  | .setField on field value =>
    if let (some r, some name) := (holder? (on.find c), field.find c) then
      let v ← prepare c value
      let store := (← get).store
      setStore (store.setFields r ((store.cell r).fields.insert name v))
  | .deleteField on field =>
    if let (some r, some name) := (holder? (on.find c), field.find c) then
      let store := (← get).store
      setStore (store.setFields r ((store.cell r).fields.erase name))
  | .edit on field e =>
    if let (some r, some name) := (holder? (on.find c), field.find c) then
      if let some q := (((← get).store.cell r).fields.get? name).bind list? then
        e.play c q

/-- How often a rule of a callback was played. -/
def World.count (w : World) (callback rule : Nat) : Nat := (w.played[callback]?.bind (·[rule]?)).getD 0

def World.mark (w : World) (callback rule : Nat) : World :=
  { w with played := w.played.modify callback (·.modify rule (· + 1)) }

/-- The first rule of a callback that applies to call number `n` and is not used up. -/
def choose (s : Scene) (callback n : Nat) (c : Call) (rules : List Rule) : Option (Nat × Rule) :=
  (rules.zipIdx.find? fun (rule, i) =>
    rule.conditions.all (·.holds s.store n c) && (rule.max.all fun m => s.world.count callback i < m)).map Prod.swap

def respond (event : Event) (rules : List Rule) (callback : Nat) (c : Call) : Play Value := do
  let s ← get
  let n := s.world.calls
  if s.world.limit ≤ n then throw (.raised "CallLimit" "call limit reached")
  set { s with world := { s.world with calls := n + 1 } }
  tell [event]
  match choose s callback n c rules with
  | none => return .null
  | some (i, rule) =>
    modify fun s => { s with world := s.world.mark callback i }
    rule.ops.forM fun op => op.play c
    prepare c rule.value

/-- The answer of a played call. -/
def perform (p : Play Value) (c : Call) (store : Store) (world : World) : Reply World Event :=
  let (outcome, s) := p.run.run { store, world, ancestors := c.ancestors, events := [] }
  { outcome, store := s.store, memory := s.world, notes := s.events, ancestors := s.ancestors }

/-- A callback that follows rules; its calls are told under the name of a phase. -/
def callback (phase : String) (rules : List Rule) : Making (Callback World Event) := do
  let id ← enroll rules.length
  return fun c store world =>
    let ancestors := c.ancestors.map (·.glimpse store)
    let event := .called phase (c.node.glimpse store) (c.node.tag store) c.key c.index ancestors
    perform (respond event rules id c) c store world

/-- A predicate that follows rules. -/
def predicate (rules : List Rule) : Making (Predicate World Event) := do
  let id ← enroll rules.length
  return fun node store world =>
    let c : Call := { node, key := none, index := none, ancestors := [], phase := .enter }
    let event := .asked (node.glimpse store) (node.tag store)
    (perform (respond event rules id c) c store world).toAnswer

end TreeWalk.Script
