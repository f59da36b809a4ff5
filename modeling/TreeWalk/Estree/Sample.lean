/-
  TreeWalk.Estree.Sample — a small program, its tree, and the orders in which a walk meets its nodes.
-/

import TreeWalk.Estree.Node

namespace TreeWalk.Estree.Sample

def source : String :=
  "export function x() \x7b console.log(1 + \"2\"); process.exit(1) \x7d"

def identifier (start stop : Nat) (name : String) : Tree := node "Identifier" start stop [("name", text name)]

def literal (start stop : Nat) (value : Value) (raw : String) : Tree := Literal.toTree ⟨start, stop, value, raw⟩

def member (start stop : Nat) (object property : Tree) : Tree :=
  node "MemberExpression" start stop
    [("object", object), ("property", property), ("computed", flag false), ("optional", flag false)]

def call (start stop : Nat) (callee : Tree) (arguments : List Tree) : Tree :=
  node "CallExpression" start stop [("callee", callee), ("arguments", .list arguments), ("optional", flag false)]

def logCall : Tree :=
  call 22 42 (member 22 33 (identifier 22 29 "console") (identifier 30 33 "log"))
    [node "BinaryExpression" 34 41
      [("left", literal 34 35 (.int 1) "1"), ("operator", text "+"), ("right", literal 38 41 (.text "2") "\"2\"")]]

def exitCall : Tree :=
  call 44 59 (member 44 56 (identifier 44 51 "process") (identifier 52 56 "exit")) [literal 57 58 (.int 1) "1"]

def function : Tree :=
  node "FunctionDeclaration" 7 61
    [("id", identifier 16 17 "x"), ("expression", flag false), ("generator", flag false), ("async", flag false),
     ("params", .list []),
     ("body", node "BlockStatement" 20 61
       [("body", .list
         [node "ExpressionStatement" 22 43 [("expression", logCall)],
          node "ExpressionStatement" 44 59 [("expression", exitCall)]])])]

/-- The tree of `source`. -/
def program : Tree :=
  node "Program" 0 61
    [("body", .list
      [node "ExportNamedDeclaration" 0 61
        [("declaration", function), ("specifiers", .list []), ("source", .leaf .null)]]),
     ("sourceType", text "module")]

/-- The types of the sample's nodes in the order in which they are entered. -/
def preorder : List String :=
  ["Program", "ExportNamedDeclaration", "FunctionDeclaration", "Identifier", "BlockStatement", "ExpressionStatement",
   "CallExpression", "MemberExpression", "Identifier", "Identifier", "BinaryExpression", "Literal", "Literal",
   "ExpressionStatement", "CallExpression", "MemberExpression", "Identifier", "Identifier", "Literal"]

/-- The types of the sample's nodes in the order in which they are left. -/
def postorder : List String :=
  ["Identifier", "Identifier", "Identifier", "MemberExpression", "Literal", "Literal", "BinaryExpression",
   "CallExpression", "ExpressionStatement", "Identifier", "Identifier", "MemberExpression", "Literal", "CallExpression",
   "ExpressionStatement", "BlockStatement", "FunctionDeclaration", "ExportNamedDeclaration", "Program"]

end TreeWalk.Estree.Sample
