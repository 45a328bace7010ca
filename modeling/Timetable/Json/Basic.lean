import Timetable.Json.Number

/-!
# JSON values and their text

A JSON value keeps the members of an object in order.  It is written without blanks by
`compact`, and on several lines with an indent of two by `indented`.  Characters outside
ASCII are written as they are.
-/

namespace Timetable

/-- A JSON value.  Whole numbers are kept apart from those in binary floating point. -/
inductive Json where
  | null
  | bool (b : Bool)
  | integer (n : Int)
  | float (x : Float)
  | string (s : String)
  | array (items : List Json)
  | object (members : List (String × Json))
  deriving Inhabited

namespace Json

/-- A character as it stands in a JSON string. -/
def escape (c : Char) : List Char :=
  if c = '"' then ['\\', '"']
  else if c = '\\' then ['\\', '\\']
  else if c = '\n' then ['\\', 'n']
  else if c = '\r' then ['\\', 'r']
  else if c = '\t' then ['\\', 't']
  else if c = '\x08' then ['\\', 'b']
  else if c = '\x0c' then ['\\', 'f']
  else if c.toNat < 32 then
    ['\\', 'u', '0', '0', Nat.digitChar (c.toNat / 16), Nat.digitChar (c.toNat % 16)]
  else [c]

/-- A string in quotes. -/
def quoted (s : String) : String :=
  String.ofList ('"' :: s.toList.flatMap escape ++ ['"'])

/-- The text of a value that holds no other value. -/
def atomText : Json → String
  | .null => "null"
  | .bool b => if b then "true" else "false"
  | .integer n => toString n
  | .float x => String.ofList (floatChars x)
  | .string s => quoted s
  | .array _ => "[]"
  | .object _ => "\x7b\x7d"

mutual

/-- The text without blanks. -/
def compact : Json → String
  | .array items => "[" ++ ",".intercalate (compactItems items) ++ "]"
  | .object members => "\x7b" ++ ",".intercalate (compactMembers members) ++ "\x7d"
  | atom => atomText atom

/-- The texts of items without blanks. -/
def compactItems : List Json → List String
  | [] => []
  | item :: items => item.compact :: compactItems items

/-- The texts of members without blanks, each with its name. -/
def compactMembers : List (String × Json) → List String
  | [] => []
  | (name, value) :: members =>
      (quoted name ++ ":" ++ value.compact) :: compactMembers members

end

/-- Items on lines of their own between brackets.  The closing bracket has the indent
`indent`, the items two blanks more. -/
def block (opening closing indent : String) (items : List String) : String :=
  opening ++ "\n" ++ ",\n".intercalate (items.map fun item => indent ++ "  " ++ item) ++
    "\n" ++ indent ++ closing

mutual

/-- The text on several lines, for a value that stands at an indent. -/
def indentedAt (indent : String) : Json → String
  | .array (item :: items) =>
      block "[" "]" indent (indentedItems (indent ++ "  ") (item :: items))
  | .object (member :: members) =>
      block "\x7b" "\x7d" indent (indentedMembers (indent ++ "  ") (member :: members))
  | atom => atomText atom

/-- The texts of items that stand at an indent. -/
def indentedItems (indent : String) : List Json → List String
  | [] => []
  | item :: items => item.indentedAt indent :: indentedItems indent items

/-- The texts of members that stand at an indent, each with its name. -/
def indentedMembers (indent : String) : List (String × Json) → List String
  | [] => []
  | (name, value) :: members =>
      (quoted name ++ ": " ++ value.indentedAt indent) :: indentedMembers indent members

end

/-- The text on several lines. -/
def indented (v : Json) : String :=
  v.indentedAt ""

/-- What a value is, in the words of a message that refuses it. -/
def description : Json → String
  | .null => "null"
  | .bool b => "boolean `" ++ atomText (.bool b) ++ "`"
  | .integer n => "integer `" ++ atomText (.integer n) ++ "`"
  | .float x => "floating point `" ++ atomText (.float x) ++ "`"
  | .string s => "string " ++ quoted s
  | .array _ => "sequence"
  | .object _ => "map"

/-- The value of a member of an object. -/
def member? (v : Json) (name : String) : Option Json :=
  match v with
  | .object members => (members.find? fun m => m.1 == name).map Prod.snd
  | _ => none

/-- The text that a string holds. -/
def text? : Json → Option String
  | .string s => some s
  | _ => none

/-- A whole number. -/
def integer? : Json → Option Int
  | .integer n => some n
  | _ => none

/-- A whole number that is not negative. -/
def natural? (v : Json) : Option Nat :=
  v.integer?.bind fun n => if 0 ≤ n then some n.toNat else none

/-- The items of an array. -/
def items? : Json → Option (List Json)
  | .array items => some items
  | _ => none

end Json
end Timetable
