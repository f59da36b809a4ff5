/-
  TreeWalk.Value.Spelling — a value as text.

  Texts and bytes are quoted; tuples, lists and mappings are spelled with their contents; a container met inside
  itself is spelled with three dots. A path through the store opens each place at most once, so as many levels as the
  store has places are enough for every value.
-/

import TreeWalk.Store
import TreeWalk.Text.Quoted

namespace TreeWalk

def Foreign.spell : Foreign → String
  | set => "\x7b1\x7d"
  | emptySet => "set()"
  | frozenSet => "frozenset(\x7b1\x7d)"
  | range => "range(0, 1)"
  | f => "<" ++ f.typeName ++ ">"

def Atom.spell : Atom → String
  | null => "None"
  | bool b => if b then "True" else "False"
  | int i => toString i
  | float t => t
  | complex t => t
  | text s => Text.quote s
  | bytes d => Text.quoteBytes d
  | byteArray d => "bytearray(" ++ Text.quoteByteArray d ++ ")"
  | action a => "Action." ++ a.name
  | foreign f => f.spell

namespace Kind

/-- The brackets of a container around the text of its contents. -/
def bracket (k : Kind) (inner : String) : String :=
  match k with
  | list => "[" ++ inner ++ "]"
  | listObject => "[" ++ inner ++ "]"
  | mapping => "\x7b" ++ inner ++ "\x7d"
  | frozenMapping => "mappingproxy(\x7b" ++ inner ++ "\x7d)"
  | object => "<Obj object>"

end Kind

namespace Value

mutual

/-- The spelling of a value, given how containers are spelled. -/
def spellWith (inner : Kind → Ref → String) : Value → String
  | .atom a => a.spell
  | .tuple vs =>
    match spellAll inner vs with
    | [t] => "(" ++ t ++ ",)"
    | ts => "(" ++ ", ".intercalate ts ++ ")"
  | .container k r => inner k r

def spellAll (inner : Kind → Ref → String) : List Value → List String
  | [] => []
  | v :: vs => spellWith inner v :: spellAll inner vs

end

/-- The spelling of a container at most `n` levels down, below the places in `above`. -/
def spellContainer (s : Store) : Nat → List Ref → Kind → Ref → String
  | 0, _, k, _ => k.bracket "..."
  | n + 1, above, k, r =>
    if r ∈ above then k.bracket "..."
    else if k.isList then
      k.bracket (", ".intercalate ((s.cell r).items.map (spellWith (spellContainer s n (r :: above)))))
    else
      k.bracket (", ".intercalate ((s.cell r).fields.entries.map fun e =>
        Text.quote e.1 ++ ": " ++ spellWith (spellContainer s n (r :: above)) e.2))

def spell (s : Store) (v : Value) : String := spellWith (spellContainer s s.size []) v

/-- A text stands for itself; everything else is spelled. -/
def plainText (s : Store) : Value → String
  | .text t => t
  | v => v.spell s

end Value

end TreeWalk
