/-!
# Outlines

Trees written over several lines: every child of a node has a line of its own, four columns further
in, with a comma behind it.
-/

namespace TinyC.Text

inductive Outline
  | leaf (text : String)
  | labelled (label : String) (value : Outline)
  | node (opening : String) (children : List Outline) (closing : String)

namespace Outline

/-- A node with labelled children. -/
def record (name : String) (fields : List (String × Outline)) : Outline :=
  .node (name ++ " \x7b") (fields.map fun (label, value) => .labelled label value) "\x7d"

/-- A node with a list of children behind a name. -/
def apply (name : String) (args : List Outline) : Outline := .node (name ++ "(") args ")"

def list (items : List Outline) : Outline := .node "[" items "]"

def indentation (depth : Nat) : String := String.ofList (List.replicate (4 * depth) ' ')

mutual

/-- The text of an outline whose first line is already indented. A node without children stays on
its line. -/
def text (depth : Nat) : Outline → String
  | .leaf t => t
  | .labelled label value => label ++ ": " ++ value.text depth
  | .node opening [] closing => opening ++ closing
  | .node opening (child :: children) closing =>
    opening ++ "\n" ++ textChildren (depth + 1) (child :: children) ++ indentation depth ++ closing

def textChildren (depth : Nat) : List Outline → String
  | [] => ""
  | child :: children =>
    indentation depth ++ child.text depth ++ ",\n" ++ textChildren depth children

end

end Outline

end TinyC.Text
