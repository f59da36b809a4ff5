/-
  TreeWalk.Value.Number — the numbers that texts name, and when two of them are the same.

  A decimal text names a binary floating-point number, the one nearest to the decimal; it is that number which is
  compared, exactly. The two zeros are one number, and what is not a number differs from itself. A complex number is
  written as its imaginary part alone when its real part is the positive zero, and otherwise as both parts between
  parentheses; a complex number whose imaginary part is zero is its real part.
-/

namespace TreeWalk

/-- A decimal: `digits · 10 ^ exponent`, with its sign apart. -/
structure Decimal where
  negative : Bool
  digits : Nat
  exponent : Int
  deriving DecidableEq, Repr

def readDigits (cs : List Char) : Option Nat :=
  if cs.isEmpty ∨ ¬ cs.all Char.isDigit then none
  else some (cs.foldl (fun n c => 10 * n + (c.toNat - '0'.toNat)) 0)

def readExponent (cs : List Char) : Option Int :=
  match cs with
  | [] => some 0
  | 'e' :: '-' :: ds => (readDigits ds).map fun n => -(n : Int)
  | 'e' :: '+' :: ds => (readDigits ds).map fun n => (n : Int)
  | 'e' :: ds => (readDigits ds).map fun n => (n : Int)
  | _ => none

def readUnsigned (negative : Bool) (cs : List Char) : Option Decimal := do
  let whole := cs.takeWhile Char.isDigit
  let rest := cs.dropWhile Char.isDigit
  let places := match rest with
    | '.' :: ds => ds.takeWhile Char.isDigit
    | _ => []
  let tail := match rest with
    | '.' :: ds => ds.dropWhile Char.isDigit
    | _ => rest
  let digits ← readDigits (whole ++ places)
  let exponent ← readExponent tail
  return ⟨negative, digits, exponent - places.length⟩

/-- The nearest binary number, its sign left out. -/
def Decimal.toFloat (d : Decimal) : Float :=
  match d.exponent with
  | .ofNat e => Float.ofScientific d.digits false e
  | .negSucc e => Float.ofScientific d.digits true (e + 1)

/-- The whole number that a finite binary number without sign is, if it is one. -/
def wholeOfBits (bits : UInt64) : Option Nat :=
  let hidden := Nat.pow 2 52
  let exponent := bits.toNat / hidden % Nat.pow 2 11
  let fraction := bits.toNat % hidden
  if exponent = 0 then (if fraction = 0 then some 0 else none)
  else if 1075 ≤ exponent then some ((fraction + hidden) * Nat.pow 2 (exponent - 1075))
  else if (fraction + hidden) % Nat.pow 2 (1075 - exponent) = 0 then
    some ((fraction + hidden) / Nat.pow 2 (1075 - exponent))
  else none

/-- A number on the real line, or none. -/
inductive Scalar where
  | notANumber
  | infinite (negative : Bool)
  | whole (i : Int)
  /-- Not whole, by the decimal it is written as: the shortest one, so no other names the same number. -/
  | broken (d : Decimal)
  deriving DecidableEq, Repr

namespace Scalar

def ofDecimal (d : Decimal) : Scalar :=
  match wholeOfBits d.toFloat.toBits with
  | some n => whole (if d.negative then -(n : Int) else n)
  | none => broken d

def readMagnitude (negative : Bool) (cs : List Char) : Scalar :=
  if cs = ['i', 'n', 'f'] then infinite negative else ((readUnsigned negative cs).map ofDecimal).getD notANumber

/-- Reads the text of a number, which may start with a sign. -/
def read : List Char → Scalar
  | '-' :: cs => readMagnitude true cs
  | '+' :: cs => readMagnitude false cs
  | cs => readMagnitude false cs

def same (x y : Scalar) : Bool := x = y && x ≠ notANumber

end Scalar

/-- A complex number. -/
structure Number where
  real : Scalar
  imaginary : Scalar := .whole 0
  deriving DecidableEq, Repr

namespace Number

def ofInt (i : Int) : Number := { real := .whole i }

def ofReal (t : String) : Number := { real := .read t.toList }

/-- The texts of both parts. The second starts at the first sign that is neither the sign of the first part nor that of
    an exponent; `before` is the character that was read last. -/
def splitParts (before : Char) : List Char → List Char × List Char
  | [] => ([], [])
  | c :: cs =>
    if (c = '+' ∨ c = '-') ∧ before ≠ '(' ∧ before ≠ 'e' then ([], c :: cs)
    else
      let (first, second) := splitParts c cs
      (c :: first, second)

/-- Reads the text of a complex number; the imaginary part ends with the letter j. -/
def ofComplex (t : String) : Number :=
  let imaginary := fun (cs : List Char) => Scalar.read (cs.takeWhile (· ≠ 'j'))
  match t.toList with
  | '(' :: cs =>
    let (first, second) := splitParts '(' cs
    ⟨.read first, imaginary second⟩
  | cs => ⟨.whole 0, imaginary cs⟩

def same (x y : Number) : Bool := x.real.same y.real && x.imaginary.same y.imaginary

end Number

end TreeWalk
