/-! # Descriptions

The one-line form of a value: a record is its name with its fields between
braces, an optional value is wrapped in its case, and a list stands between
brackets.
-/

namespace Lru.Text

/-- A named field of a record. -/
abbrev Field := String × String

def field (f : Field) : String :=
  f.1 ++ ": " ++ f.2

def fields (fs : List Field) : String :=
  String.intercalate ", " (fs.map field)

/-- A record with all its fields. -/
def record (name : String) (fs : List Field) : String :=
  name ++ " \x7b " ++ fields fs ++ " \x7d"

/-- A record that shows only some of its fields. -/
def openRecord (name : String) (fs : List Field) : String :=
  name ++ " \x7b " ++ fields fs ++ ", .. \x7d"

/-- A case with its content. -/
def wrapped (name : String) (content : String) : String :=
  name ++ "(" ++ content ++ ")"

def option (content : Option String) : String :=
  match content with
  | some text => wrapped "Some" text
  | none => "None"

def list (items : List String) : String :=
  "[" ++ String.intercalate ", " items ++ "]"

/-- A slot by its number. -/
def slot (id : Nat) : String :=
  wrapped "SlotId" (toString id)

def bool (b : Bool) : String :=
  if b then "true" else "false"

end Lru.Text
