/-! # Bracketed layouts

`Doc` is the shape of a printed value: single words, pairs with a colon, and items between
brackets.  It is written on one line (`Doc.compact`) or with one item a line, four blanks deeper than
the brackets around it (`Doc.pretty`). -/

namespace HashStore

/-- What stands around the items of a group. -/
inductive Brackets where
  /-- Square brackets. -/
  | list
  /-- Braces. -/
  | map
  /-- A name and braces.  An `elided` record says that it does not show all its fields. -/
  | record (name : String) (elided : Bool)
  /-- A name and round brackets. -/
  | wrapper (name : String)

namespace Brackets

def opening : Brackets → String
  | list => "["
  | map => "\x7b"
  | record name _ => name ++ " \x7b"
  | wrapper name => name ++ "("

def closing : Brackets → String
  | list => "]"
  | map | record _ _ => "\x7d"
  | wrapper _ => ")"

/-- What keeps the items of a one-line group away from its brackets. -/
def padding : Brackets → String
  | record _ _ => " "
  | _ => ""

/-- What stands in for the items that are not shown. -/
def ellipsis : Brackets → List String
  | record _ true => [".."]
  | _ => []

end Brackets

/-- The shape of a printed value. -/
inductive Doc where
  | word (text : String)
  | pair (label content : Doc)
  | group (brackets : Brackets) (items : List Doc)

namespace Doc

/-- A group of named fields. -/
def record (name : String) (fields : List (String × Doc)) (elided : Bool) : Doc :=
  group (.record name elided) (fields.map fun (label, content) => pair (word label) content)

mutual

/-- The layout on one line. -/
def compact : Doc → String
  | word text => text
  | pair label content => label.compact ++ ": " ++ content.compact
  | group brackets items =>
    brackets.opening ++ brackets.padding
      ++ String.intercalate ", " (compactAll items ++ brackets.ellipsis)
      ++ brackets.padding ++ brackets.closing

def compactAll : List Doc → List String
  | [] => []
  | item :: rest => item.compact :: compactAll rest

end

/-- A fresh line at the given depth. -/
def newLine (depth : Nat) : String := "\n" ++ String.ofList (List.replicate (4 * depth) ' ')

mutual

/-- The layout over several lines, inside `depth` pairs of brackets.  Each item ends with a comma,
the mark for items that are not shown does not; a group without items stays on one line. -/
def pretty (depth : Nat) : Doc → String
  | word text => text
  | pair label content => label.pretty depth ++ ": " ++ content.pretty depth
  | group brackets items =>
    match prettyAll (depth + 1) items
        ++ brackets.ellipsis.map (newLine (depth + 1) ++ ·) with
    | [] => brackets.opening ++ brackets.closing
    | lines => brackets.opening ++ String.join lines ++ newLine depth ++ brackets.closing

def prettyAll (depth : Nat) : List Doc → List String
  | [] => []
  | item :: rest => (newLine depth ++ item.pretty depth ++ ",") :: prettyAll depth rest

end

end Doc

/-- Values that can be shown to a reader. -/
class Describe (α : Type) where
  doc : α → Doc

end HashStore
