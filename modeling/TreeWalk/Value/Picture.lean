/-
  TreeWalk.Value.Picture — a value drawn together with everything it reaches.

  Each container is drawn in full the first time it is met and by its place alone after that, in the order: elements,
  fields, inherited fields. So a picture is finite, whatever cycles the store has, and it shows which parts are one and
  the same.
-/

import TreeWalk.Store

namespace TreeWalk

inductive Picture where
  | atom (a : Atom)
  | tuple (items : List Picture)
  | container (kind : Kind) (ref : Ref) (items : List Picture) (fields inherited : List (String × Picture))
  /-- A container that was drawn before. -/
  | seen (ref : Ref)
  deriving Repr, Inhabited

/-- Drawing keeps the places that were drawn already. -/
abbrev Drawing := StateM (List Ref)

namespace Value

mutual

/-- Draw a value, given how containers are drawn. -/
def drawWith (inner : Kind → Ref → Drawing Picture) : Value → Drawing Picture
  | .atom a => return .atom a
  | .tuple vs => return .tuple (← drawAll inner vs)
  | .container k r => inner k r

def drawAll (inner : Kind → Ref → Drawing Picture) : List Value → Drawing (List Picture)
  | [] => return []
  | v :: vs => return (← drawWith inner v) :: (← drawAll inner vs)

end

def drawFields (inner : Kind → Ref → Drawing Picture) (f : Fields Value) : Drawing (List (String × Picture)) :=
  f.entries.mapM fun e => return (e.1, ← drawWith inner e.2)

/-- Draw a container at most `n` levels down. No path opens a place twice, so as many levels as the store has places
    draw everything. -/
def drawContainer (s : Store) : Nat → Kind → Ref → Drawing Picture
  | 0, _, r => return .seen r
  | n + 1, k, r => do
    if r ∈ (← get) then return .seen r
    modify (r :: ·)
    let items ← drawAll (drawContainer s n) (if k.isList then (s.cell r).items else [])
    let fields ← drawFields (drawContainer s n) (s.cell r).fields
    let inherited ← drawFields (drawContainer s n) (s.cell r).inherited
    return .container k r items fields inherited

def picture (s : Store) (v : Value) : Picture := (drawWith (drawContainer s s.size) v |>.run []).1

end Value

/-- A value in short: the place of a container, or else the whole value. -/
inductive Glimpse where
  | place (ref : Ref)
  | whole (picture : Picture)
  deriving Repr, Inhabited

def Value.glimpse (s : Store) : Value → Glimpse
  | .container _ r => .place r
  | v => .whole (v.picture s)

end TreeWalk
