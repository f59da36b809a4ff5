/-
  TreeWalk.Value — what a tree is made of.

  A value is an atom, a tuple of values, or a container. An atom is complete in itself. A tuple is known by its
  elements and never changes. A container is known by its kind and its place in the store
  (`TreeWalk.Store`), where its contents are kept: two containers are the same exactly when they are one place of
  the store. Since the kind stands in the value, no change of the store turns a list into a mapping.

  Floating-point and complex numbers are kept as their canonical texts: they are shown and compared, and nothing
  computes with them.
-/

namespace TreeWalk

/-- A place in the store. -/
abbrev Ref := Nat

/-- What a callback may ask of the walk. -/
inductive Action where
  /-- Go on as usual. -/
  | proceed
  /-- Do not walk the children of this node. -/
  | skip
  /-- Stop the whole walk. -/
  | exit
  deriving DecidableEq, Repr

namespace Action

def name : Action → String
  | proceed => "CONTINUE"
  | skip => "SKIP"
  | exit => "EXIT"

/-- The word an action is written with. -/
def word : Action → String
  | proceed => "continue"
  | skip => "skip"
  | exit => "exit"

def all : List Action := [proceed, skip, exit]

def ofName? (s : String) : Option Action := all.find? (·.name = s)

def ofWord? (s : String) : Option Action := all.find? (·.word = s)

theorem ofName?_name (a : Action) : ofName? a.name = some a := by cases a <;> decide

theorem ofWord?_word (a : Action) : ofWord? a.word = some a := by cases a <;> decide

end Action

/-- Values that hold nothing a walk could reach. -/
inductive Foreign where
  /-- Of the number one. -/
  | set
  | emptySet
  /-- Of the number one. -/
  | frozenSet
  /-- Of the numbers below one. -/
  | range
  | bare
  | slotted
  | marker
  | function
  deriving DecidableEq, Repr

namespace Foreign

def typeName : Foreign → String
  | set => "set"
  | emptySet => "set"
  | frozenSet => "frozenset"
  | range => "range"
  | bare => "object"
  | slotted => "Slots"
  | marker => "type"
  | function => "function"

/-- The numbers in a foreign collection. -/
def numbers? : Foreign → Option (List Int)
  | set => some [1]
  | emptySet => some []
  | frozenSet => some [1]
  | range => some [0]
  | _ => none

/-- Only a class and a function can be called. -/
def isCallable : Foreign → Bool
  | marker => true
  | function => true
  | _ => false

end Foreign

inductive Atom where
  | null
  | bool (b : Bool)
  | int (i : Int)
  | float (text : String)
  | complex (text : String)
  | text (s : String)
  | bytes (data : List UInt8)
  | byteArray (data : List UInt8)
  | action (a : Action)
  | foreign (f : Foreign)
  deriving DecidableEq, Repr

namespace Atom

def typeName : Atom → String
  | null => "NoneType"
  | bool _ => "bool"
  | int _ => "int"
  | float _ => "float"
  | complex _ => "complex"
  | text _ => "str"
  | bytes _ => "bytes"
  | byteArray _ => "bytearray"
  | action _ => "Action"
  | foreign f => f.typeName

/-- Null, false, zeros and what is empty are false; everything else is true. -/
def truthy : Atom → Bool
  | null => false
  | bool b => b
  | int i => i ≠ 0
  | float t => t ≠ "0.0" ∧ t ≠ "-0.0"
  | complex t => ¬ t ∈ ["0j", "-0j", "(-0+0j)", "(-0-0j)"]
  | text s => s ≠ ""
  | bytes d => !d.isEmpty
  | byteArray d => !d.isEmpty
  | action _ => true
  | foreign f => f ≠ .emptySet

end Atom

/-- The kinds of containers. -/
inductive Kind where
  | list
  /-- Fields that callbacks may change. -/
  | mapping
  /-- Fields that are only read. -/
  | frozenMapping
  /-- Fields of its own, and fields it inherits from its class. -/
  | object
  /-- A list that has fields besides its elements. -/
  | listObject
  deriving DecidableEq, Repr

namespace Kind

def typeName : Kind → String
  | list => "list"
  | mapping => "dict"
  | frozenMapping => "mappingproxy"
  | object => "Obj"
  | listObject => "ListObj"

def isMapping : Kind → Bool
  | mapping => true
  | frozenMapping => true
  | _ => false

/-- Whether elements stand in it, one after the other. -/
def isList : Kind → Bool
  | list => true
  | listObject => true
  | _ => false

/-- Whether it can hold fields. -/
def hasFields : Kind → Bool
  | list => false
  | _ => true

end Kind

inductive Value where
  | atom (a : Atom)
  | tuple (items : List Value)
  | container (kind : Kind) (ref : Ref)
  deriving Repr, Inhabited

namespace Value

mutual

/-- Values are compared element by element; containers by kind and place. -/
def decEq : (v w : Value) → Decidable (v = w)
  | .atom a, .atom b => decidable_of_iff (a = b) ⟨fun h => h ▸ rfl, Value.atom.inj⟩
  | .tuple vs, .tuple ws =>
    match decEqList vs ws with
    | isTrue h => isTrue (h ▸ rfl)
    | isFalse h => isFalse fun e => h (Value.tuple.inj e)
  | .container k r, .container l s =>
    decidable_of_iff (k = l ∧ r = s) ⟨fun h => h.1 ▸ h.2 ▸ rfl, Value.container.inj⟩
  | .atom _, .tuple _ => isFalse nofun
  | .atom _, .container _ _ => isFalse nofun
  | .tuple _, .atom _ => isFalse nofun
  | .tuple _, .container _ _ => isFalse nofun
  | .container _ _, .atom _ => isFalse nofun
  | .container _ _, .tuple _ => isFalse nofun

def decEqList : (vs ws : List Value) → Decidable (vs = ws)
  | [], [] => isTrue rfl
  | [], _ :: _ => isFalse nofun
  | _ :: _, [] => isFalse nofun
  | v :: vs, w :: ws =>
    match decEq v w, decEqList vs ws with
    | isTrue h, isTrue t => isTrue (h ▸ t ▸ rfl)
    | isFalse h, _ => isFalse fun e => h (List.cons.inj e).1
    | _, isFalse t => isFalse fun e => t (List.cons.inj e).2

end

instance : DecidableEq Value := decEq

@[match_pattern] abbrev null : Value := .atom .null

@[match_pattern] abbrev int (i : Int) : Value := .atom (.int i)

@[match_pattern] abbrev text (s : String) : Value := .atom (.text s)

@[match_pattern] abbrev action (a : Action) : Value := .atom (.action a)

def typeName : Value → String
  | .atom a => a.typeName
  | .tuple _ => "tuple"
  | .container k _ => k.typeName

/-- Lists and tuples hold siblings in order. -/
def isSequence : Value → Bool
  | .atom _ => false
  | .tuple _ => true
  | .container k _ => k.isList

def ref? : Value → Option Ref
  | .container _ r => some r
  | _ => none

def text? : Value → Option String
  | .text s => some s
  | _ => none

/-- Whole numbers count as positions; the two truth values do not. -/
def int? : Value → Option Int
  | .int i => some i
  | _ => none

/-- A value that can be called although no callback stands behind it. -/
def isCallable : Value → Bool
  | .atom (.foreign f) => f.isCallable
  | _ => false

end Value

end TreeWalk
