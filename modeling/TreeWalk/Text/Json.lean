/-
  TreeWalk.Text.Json — pictures as JSON text, indented by two spaces a level, in ASCII.
-/

import TreeWalk.Value.Picture
import TreeWalk.Text.Quoted

namespace TreeWalk.Text

/-- A code unit written by its four hexadecimal digits. -/
def jsonUnit (n : Nat) : List Char := '\\' :: 'u' :: hexDigits 4 n

def jsonEscape (c : Char) : List Char :=
  if c = doubleQuote ∨ c = '\\' then ['\\', c]
  else if c = '\n' then ['\\', 'n']
  else if c = '\r' then ['\\', 'r']
  else if c = '\t' then ['\\', 't']
  else if c = '\x08' then ['\\', 'b']
  else if c = '\x0c' then ['\\', 'f']
  else if 0x20 ≤ c.toNat ∧ c.toNat < 0x80 then [c]
  else if c.toNat < 0x10000 then jsonUnit c.toNat
  else jsonUnit (0xd800 + (c.toNat - 0x10000) / 0x400) ++ jsonUnit (0xdc00 + (c.toNat - 0x10000) % 0x400)

def jsonQuote (s : String) : String :=
  String.ofList (doubleQuote :: s.toList.flatMap jsonEscape ++ [doubleQuote])

/-- Entries between brackets, each on a line of its own; without entries the brackets alone. -/
def jsonBlock (depth : Nat) (start stop : String) (entries : List String) : String :=
  let indent := fun (n : Nat) => "\n" ++ String.ofList (List.replicate (2 * n) ' ')
  if entries.isEmpty then start ++ stop
  else start ++ indent (depth + 1) ++ ("," ++ indent (depth + 1)).intercalate entries ++ indent depth ++ stop

def jsonAtom : Atom → String
  | .bool b => if b then "true" else "false"
  | .int i => toString i
  | .float t => t
  | .text s => jsonQuote s
  | _ => "null"

mutual

/-- Lists and tuples become arrays, records become objects, and what has no JSON form becomes null. -/
def jsonPicture (depth : Nat) : Picture → String
  | .atom a => jsonAtom a
  | .tuple items => jsonBlock depth "[" "]" (jsonItems (depth + 1) items)
  | .container k _ items fields _ =>
    if k.isList then jsonBlock depth "[" "]" (jsonItems (depth + 1) items)
    else jsonBlock depth "\x7b" "\x7d" (jsonFields (depth + 1) fields)
  | .seen _ => "null"

def jsonItems (depth : Nat) : List Picture → List String
  | [] => []
  | p :: ps => jsonPicture depth p :: jsonItems depth ps

def jsonFields (depth : Nat) : List (String × Picture) → List String
  | [] => []
  | (name, p) :: ps => (jsonQuote name ++ ": " ++ jsonPicture depth p) :: jsonFields depth ps

end

end TreeWalk.Text
