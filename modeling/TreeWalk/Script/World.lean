/-
  TreeWalk.Script.World — what scripted callbacks share.

  Scripted callbacks number the containers they make and the calls they answer, over all walks, and they count how often
  each of their rules was played. What happens is told as events, in which containers go by their numbers: the number of
  a container is its place in the store, for nothing else makes containers.
-/

import TreeWalk.Record
import TreeWalk.Value.Picture
import TreeWalk.Walk.Visit

namespace TreeWalk.Script

inductive Event where
  | called (phase : String) (node : Glimpse) (tag : Option String) (key : Option String) (index : Option Nat)
      (ancestors : List Glimpse)
  | asked (node : Glimpse) (tag : Option String)
  | counted (n : Nat)
  | logged (text : String)
  deriving Repr

structure World where
  /-- Every container made, by its number. -/
  made : Array Value := #[]
  /-- The calls answered so far. -/
  calls : Nat := 0
  /-- From so many calls on, every call fails. -/
  limit : Nat
  /-- How often each rule of each callback was played. -/
  played : Array (Array Nat) := #[]
  debug : Bool := true
  /-- The steps a walk may take. -/
  fuel : Nat

/-- A store together with the script's world. -/
structure Workshop where
  store : Store
  world : World

abbrev Making := StateM Workshop

/-- A container of a kind, without contents yet. -/
def make (k : Kind) : Making Ref := modifyGet fun w =>
  let r := w.store.size
  (r, { w with
    store := w.store.push {}
    world := { w.world with made := w.world.made.push (.container k r) } })

/-- Fill a container that was just made. -/
def fill (r : Ref) (c : Cell) : Making Unit := modify fun w => { w with store := w.store.put r c }

/-- The container of a number, or null. -/
def madeAs (n : Nat) : Making Value := return (← get).world.made[n]?.getD .null

/-- A number for a new callback with so many rules. -/
def enroll (rules : Nat) : Making Nat := modifyGet fun w =>
  (w.world.played.size, { w with world := { w.world with played := w.world.played.push (Array.replicate rules 0) } })

/-- The events of a journal: the records logged, and what the callbacks noted. -/
def events {σ : Type} (journal : List (Entry σ Event)) : List Event :=
  journal.flatMap fun
    | .log t => [.logged t]
    | .exchange _ _ reply => reply.notes

end TreeWalk.Script
