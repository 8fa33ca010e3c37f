/-!
# JSON documents

A document is written on one line (`Json.compact`) or with one item a line, two spaces deeper than
what holds it (`Json.indented`). The fields of an object keep their order.
-/

namespace PinQuery

/-- A document. A number is kept as the text that is written. -/
inductive Json
  | string (text : String)
  | number (text : String)
  | bool (value : Bool)
  | array (items : List Json)
  | object (fields : List (String × Json))

namespace Json

/-- A digit of a code unit. -/
def hexDigit (n : Nat) : Char :=
  if n < 10 then .ofNat ('0'.toNat + n) else .ofNat ('a'.toNat + n - 10)

/-- A character inside a string: quotes, backslashes and control characters are escaped. -/
def escapeChar (c : Char) : List Char :=
  match c with
  | '"' => ['\\', '"']
  | '\\' => ['\\', '\\']
  | '\x08' => ['\\', 'b']
  | '\x0c' => ['\\', 'f']
  | '\n' => ['\\', 'n']
  | '\r' => ['\\', 'r']
  | '\t' => ['\\', 't']
  | c =>
    if c.toNat < 0x20 then ['\\', 'u', '0', '0', hexDigit (c.toNat / 16), hexDigit (c.toNat % 16)]
    else [c]

/-- A text between quotes. -/
def quote (text : String) : String := "\"" ++ String.ofList (text.toList.flatMap escapeChar) ++ "\""

mutual

/-- A document on one line. -/
def compact : Json → String
  | .string text => quote text
  | .number text => text
  | .bool value => if value then "true" else "false"
  | .array items => "[" ++ ",".intercalate (compactItems items) ++ "]"
  | .object fields => "\x7b" ++ ",".intercalate (compactFields fields) ++ "\x7d"

/-- The items of an array. -/
def compactItems : List Json → List String
  | [] => []
  | item :: items => item.compact :: compactItems items

/-- The fields of an object. -/
def compactFields : List (String × Json) → List String
  | [] => []
  | (key, value) :: fields => (quote key ++ ":" ++ value.compact) :: compactFields fields

end

/-- The start of a line at a depth. -/
def indent (depth : Nat) : String := "\n" ++ String.ofList (List.replicate (2 * depth) ' ')

/-- Items on lines of their own between two brackets; nothing between them if there are none. -/
def block (opening closing : String) (depth : Nat) (items : List String) : String :=
  if items.isEmpty then opening ++ closing
  else
    opening ++ indent (depth + 1) ++ ("," ++ indent (depth + 1)).intercalate items ++ indent depth
      ++ closing

mutual

/-- A document with one item a line, itself at a depth. -/
def indentedAt (depth : Nat) : Json → String
  | .string text => quote text
  | .number text => text
  | .bool value => if value then "true" else "false"
  | .array items => block "[" "]" depth (indentedItems (depth + 1) items)
  | .object fields => block "\x7b" "\x7d" depth (indentedFields (depth + 1) fields)

/-- The items of an array at a depth. -/
def indentedItems (depth : Nat) : List Json → List String
  | [] => []
  | item :: items => item.indentedAt depth :: indentedItems depth items

/-- The fields of an object at a depth. -/
def indentedFields (depth : Nat) : List (String × Json) → List String
  | [] => []
  | (key, value) :: fields =>
    (quote key ++ ": " ++ value.indentedAt depth) :: indentedFields depth fields

end

/-- A document with one item a line. -/
def indented (json : Json) : String := json.indentedAt 0

end Json

end PinQuery
