/-
  TreeWalk.Text.Quoted — texts and bytes between quotation marks.

  The mark is the apostrophe, unless the text holds an apostrophe and no double quote: then it is the double quote.
  The mark and the backslash are written after a backslash; tab, line feed and carriage return by their letters;
  what is not printable by its code in the least of two, four or eight hexadecimal digits. In a byte array the
  apostrophe is written after a backslash whatever the mark is.
-/

import TreeWalk.Text.Printable

namespace TreeWalk.Text

def apostrophe : Char := '\x27'

def doubleQuote : Char := '\x22'

/-- The last `k` hexadecimal digits of `n`, the most significant first. -/
def hexDigits : Nat → Nat → List Char
  | 0, _ => []
  | k + 1, n => hexDigits k (n / 16) ++ [Nat.digitChar (n % 16)]

/-- A character written by its code. -/
def codeEscape (n : Nat) : List Char :=
  if n < 0x100 then '\\' :: 'x' :: hexDigits 2 n
  else if n < 0x10000 then '\\' :: 'u' :: hexDigits 4 n
  else '\\' :: 'U' :: hexDigits 8 n

/-- How a character is written between two marks, where `slashed` has the characters to be written after a backslash,
    and `keep` tells which characters are shown as they are. -/
def escape (keep : Char → Bool) (slashed : List Char) (c : Char) : List Char :=
  if c ∈ slashed then ['\\', c]
  else if c = '\t' then ['\\', 't']
  else if c = '\n' then ['\\', 'n']
  else if c = '\r' then ['\\', 'r']
  else if keep c then [c]
  else codeEscape c.toNat

def markFor (cs : List Char) : Char :=
  if apostrophe ∈ cs ∧ doubleQuote ∉ cs then doubleQuote else apostrophe

def quoted (keep : Char → Bool) (slashed cs : List Char) : List Char :=
  markFor cs :: cs.flatMap (escape keep (markFor cs :: '\\' :: slashed)) ++ [markFor cs]

def quote (s : String) : String := String.ofList (quoted isPrintable [] s.toList)

/-- Of bytes, the printable ASCII characters are shown as they are. -/
def quotedBytes (slashed : List Char) (data : List UInt8) : String :=
  String.ofList
    ('b' :: quoted (fun c => 0x20 ≤ c.toNat && c.toNat < 0x7f) slashed (data.map fun b => Char.ofNat b.toNat))

def quoteBytes (data : List UInt8) : String := quotedBytes [] data

def quoteByteArray (data : List UInt8) : String := quotedBytes [apostrophe] data

end TreeWalk.Text
