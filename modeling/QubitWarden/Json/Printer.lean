import QubitWarden.Json.Value

/-!
# Writing JSON

The compact form: no blanks, members in order, and in a text only the quote, the backslash and the
characters below U+0020 are escaped.

* `escape`: how one character of a text is written.
* `Json.render`: the text of a value.
-/

namespace QubitWarden.Json

/-- A character inside a string literal. -/
def escape (c : Char) : List Char :=
  if c = '"' then ['\\', '"']
  else if c = '\\' then ['\\', '\\']
  else if c = '\x08' then ['\\', 'b']
  else if c = '\t' then ['\\', 't']
  else if c = '\n' then ['\\', 'n']
  else if c = '\x0c' then ['\\', 'f']
  else if c = '\r' then ['\\', 'r']
  else if c.toNat < 32 then
    ['\\', 'u', '0', '0', Nat.digitChar (c.toNat / 16), Nat.digitChar (c.toNat % 16)]
  else [c]

def quote (s : String) : List Char := '"' :: s.toList.flatMap escape ++ ['"']

/-- A string literal; one that denotes no text is written as half of a surrogate pair. -/
def literal : Option String → List Char
  | some s => quote s
  | none => '"' :: "\\ud800".toList ++ ['"']

mutual

def chars : Json → List Char
  | .null => "null".toList
  | .bool true => "true".toList
  | .bool false => "false".toList
  | .natural n => (Nat.repr n).toList
  | .number spelling => spelling.toList
  | .string t => literal t
  | .array items => '[' :: itemChars items
  | .object members => '\x7b' :: memberChars members

/-- The items of an array with the closing bracket. -/
def itemChars : List Json → List Char
  | [] => [']']
  | [item] => chars item ++ [']']
  | item :: rest => chars item ++ ',' :: itemChars rest

/-- The members of an object with the closing brace. -/
def memberChars : List (Option String × Json) → List Char
  | [] => ['\x7d']
  | [(key, value)] => literal key ++ ':' :: (chars value ++ ['\x7d'])
  | (key, value) :: rest => literal key ++ ':' :: (chars value ++ ',' :: memberChars rest)

end

/-- The compact text of a value. -/
def render (value : Json) : String := String.ofList (chars value)

end QubitWarden.Json
