import QubitWarden.Json.Value

/-!
# Lenient reading of objects

Members by name, where a missing member is null and of several with one name the last counts. A
member of another kind than the one asked for reads as absent, and an absent one as the empty text,
zero, false or the empty list.
-/

namespace QubitWarden.Json.Lenient

/-- The last member of that name; null when there is none. -/
def field (j : Json) (name : String) : Json :=
  match j.members? with
  | some members => ((fields name members).getLast?).getD .null
  | none => .null

def text? (j : Json) (name : String) : Option String := (field j name).text?

/-- The text of a member, or the empty text. -/
def text (j : Json) (name : String) : String := (text? j name).getD ""

def natural? (j : Json) (name : String) : Option Nat :=
  match field j name with
  | .natural n => some n
  | _ => none

def natural (j : Json) (name : String) : Nat := (natural? j name).getD 0

/-- The number of a member, if it is below `2 ^ 32`. -/
def word32? (j : Json) (name : String) : Option UInt32 := (field j name).word32?

def word32 (j : Json) (name : String) : UInt32 := (word32? j name).getD 0

/-- The number of a member, if it is below `2 ^ 64`. -/
def word64? (j : Json) (name : String) : Option UInt64 := (field j name).word64?

def word64 (j : Json) (name : String) : UInt64 := (word64? j name).getD 0

def flag? (j : Json) (name : String) : Option Bool := (field j name).bool?

def flag (j : Json) (name : String) : Bool := (flag? j name).getD false

def list (j : Json) (name : String) : List Json := ((field j name).items?).getD []

/-- The texts among the items of an array. -/
def texts (j : Json) (name : String) : List String := (list j name).filterMap Json.text?

/-- The members of an object that are texts. -/
def entries (j : Json) (name : String) : List (String × String) :=
  (((field j name).members?).getD []).filterMap fun (key, value) =>
    value.text?.map fun t => (key, t)

/-- The two texts of an array of two. -/
def pair? : Json → Option (String × String)
  | .array [.string (some a), .string (some b)] => some (a, b)
  | _ => none

/-- The pairs of texts among the items of an array. -/
def pairs (j : Json) (name : String) : List (String × String) := (list j name).filterMap pair?

end QubitWarden.Json.Lenient
