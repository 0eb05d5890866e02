/-! Detailed texts of structured values: names followed by their parts, in
braces, brackets or parentheses. -/
namespace PeerTags.Text

def commas (parts : List String) : String := ", ".intercalate parts

/-- A name with its fields, for instance a point with its coordinates. -/
def record (name : String) (fields : List (String × String)) : String :=
  name ++ " \x7b " ++ commas (fields.map fun f => f.1 ++ ": " ++ f.2) ++ " \x7d"

/-- A name with those of its fields that are shown; two dots stand for the rest. -/
def partialRecord (name : String) (fields : List (String × String)) : String :=
  name ++ " \x7b " ++ commas (fields.map (fun f => f.1 ++ ": " ++ f.2) ++ [".."]) ++ " \x7d"

def variant (name : String) (arg : String) : String := name ++ "(" ++ arg ++ ")"
def list (items : List String) : String := "[" ++ commas items ++ "]"
def set (items : List String) : String := "\x7b" ++ commas items ++ "\x7d"
def map (entries : List (String × String)) : String := set (entries.map fun e => e.1 ++ ": " ++ e.2)

end PeerTags.Text
