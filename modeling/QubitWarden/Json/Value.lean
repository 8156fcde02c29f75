/-!
# JSON values

A value as it stands in a text: members keep their order and may repeat, and a string literal that
denotes no text is kept apart.

* `Json.string none`: a literal that holds half of a surrogate pair, or bytes that are no
  characters.
* `Json.natural`: a numeral of digits alone; `Json.number` is any other numeral, by its spelling.
* `members?`, `field?`: the members of an object whose keys are texts, and a member that may occur
  at most once.
-/

namespace QubitWarden

/-- A JSON value. -/
inductive Json where
  | null
  | bool (value : Bool)
  | natural (value : Nat)
  | number (spelling : String)
  | string (text : Option String)
  | array (items : List Json)
  | object (members : List (Option String × Json))
  deriving Inhabited

namespace Json

/-- The string literal of a text. -/
def text (s : String) : Json := .string (some s)

/-- The text, or null for none. -/
def ofText? : Option String → Json
  | none => .null
  | some s => text s

/-- The object with these members. -/
def ofMembers (members : List (String × Json)) : Json :=
  .object (members.map fun (key, value) => (some key, value))

/-! ## Taking values apart -/

/-- The members of an object, if all its keys are texts. -/
def members? : Json → Option (List (String × Json))
  | .object members => members.mapM fun (key, value) => key.map fun k => (k, value)
  | _ => none

def items? : Json → Option (List Json)
  | .array items => some items
  | _ => none

def text? : Json → Option String
  | .string t => t
  | _ => none

def bool? : Json → Option Bool
  | .bool b => some b
  | _ => none

/-- A number below `2 ^ 32`. -/
def word32? : Json → Option UInt32
  | .natural n => if n < UInt32.size then some (UInt32.ofNat n) else none
  | _ => none

/-- A number below `2 ^ 64`. -/
def word64? : Json → Option UInt64
  | .natural n => if n < UInt64.size then some (UInt64.ofNat n) else none
  | _ => none

/-- A number below 256. -/
def byte? : Json → Option UInt8
  | .natural n => if n < 256 then some (UInt8.ofNat n) else none
  | _ => none

/-- What `read` makes of a value, where null stands for nothing. -/
def optional? {α : Type} (read : Json → Option α) : Json → Option (Option α)
  | .null => some none
  | value => (read value).map some

/-- The name of a variant: a string literal, or the only key of an object with the value null. -/
def variant? : Json → Option String
  | .string t => t
  | .object [(key, .null)] => key
  | _ => none

/-- The values of the members called `name`, in order. -/
def fields (name : String) (members : List (String × Json)) : List Json :=
  (members.filter fun member => member.1 = name).map (·.2)

/-- The member called `name` that must occur exactly once. -/
def required? (name : String) (members : List (String × Json)) : Option Json :=
  match fields name members with
  | [value] => some value
  | _ => none

/-- The member called `name` that may be left out, which then counts as null. -/
def nullable? (name : String) (members : List (String × Json)) : Option Json :=
  match fields name members with
  | [] => some .null
  | [value] => some value
  | _ => none

end Json

end QubitWarden
