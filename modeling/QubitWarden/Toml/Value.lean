/-!
# TOML values

A document is a table of named values. A table remembers how it came about, because that decides
what may still be added to it.

* `TableForm`: written under its own header, implied by a longer header, made by a dotted key, or
  inline.
* `Toml.update`: the entries with the table at the end of a path changed; missing tables on the way
  are made.
* `Toml.define`, `Toml.openTable`, `Toml.openArrayTable`: a key, a table header and a header of an
  array of tables. Nothing is defined twice.
-/

namespace QubitWarden

/-- How a table came about. -/
inductive TableForm where
  /-- Written under its own header. -/
  | header
  /-- Implied by the header of a table inside it. -/
  | implied
  /-- Made by a dotted key. -/
  | dotted
  /-- Written in braces, and closed for good. -/
  | inline
  deriving DecidableEq, Repr

/-- A value of a document. -/
inductive Toml where
  | string (text : String)
  | integer (value : Int)
  | float
  | bool (value : Bool)
  | datetime
  | array (items : List Toml)
  | table (form : TableForm) (entries : List (String × Toml))
  /-- An array of tables, each written under a header of its own. -/
  | tables (elements : List (List (String × Toml)))
  deriving Inhabited

namespace Toml

/-- A number below a bound. -/
def natural? (bound : Nat) : Toml → Option Nat
  | .integer n => if 0 ≤ n ∧ n.toNat < bound then some n.toNat else none
  | _ => none

/-- A number below `2 ^ 32`. -/
def word32? (value : Toml) : Option UInt32 := (natural? UInt32.size value).map UInt32.ofNat

/-- A number below `2 ^ 64`. -/
def word64? (value : Toml) : Option UInt64 := (natural? UInt64.size value).map UInt64.ofNat

def bool? : Toml → Option Bool
  | .bool b => some b
  | _ => none

/-! ## Tables -/

/-- The values of a table by their keys. -/
abbrev Entries := List (String × Toml)

def get? (key : String) (entries : Entries) : Option Toml := entries.lookup key

/-- The entries with one key set. -/
def put (key : String) (value : Toml) : Entries → Entries
  | [] => [(key, value)]
  | (k, v) :: rest => if k = key then (k, value) :: rest else (k, v) :: put key value rest

/-- The entries with `change` made to the table at the end of `path`. A path of a dotted key goes
through no table that has its own header. -/
def update (viaDots : Bool) (change : TableForm → Entries → Option Entries) :
    (path : List String) → (form : TableForm) → Entries → Option Entries
  | [], form, entries => change form entries
  | key :: path, _, entries =>
    match get? key entries with
    | none =>
      let form := if viaDots then TableForm.dotted else .implied
      (update viaDots change path form []).map fun inner => put key (.table form inner) entries
    | some (.table form inner) =>
      if form = .inline ∨ (viaDots ∧ form = .header) then none
      else
        (update viaDots change path form inner).map fun inner => put key (.table form inner) entries
    | some (.tables elements) =>
      match elements.getLast? with
      | none => none
      | some last =>
        (update viaDots change path .header last).map fun last =>
          put key (.tables (elements.dropLast ++ [last])) entries
    | some _ => none

/-- The entries with a possibly dotted key defined. Several parts need a table made by dotted keys,
and a single part one that is not. -/
def define (value : Toml) (path : List String) (key : String) (form : TableForm)
    (entries : Entries) : Option Entries :=
  update true
    (fun form entries =>
      if decide (form = .dotted) = path.isEmpty then none
      else if (get? key entries).isSome then none
      else some (entries ++ [(key, value)]))
    path form entries

/-- The entries with a table opened by a header. -/
def openTable (path : List String) (key : String) (entries : Entries) : Option Entries :=
  update false
    (fun _ entries =>
      match get? key entries with
      | none => some (entries ++ [(key, .table .header [])])
      | some (.table .implied inner) => some (put key (.table .header inner) entries)
      | some _ => none)
    path .header entries

/-- The entries with an element opened in an array of tables. -/
def openArrayTable (path : List String) (key : String) (entries : Entries) : Option Entries :=
  update false
    (fun _ entries =>
      match get? key entries with
      | none => some (entries ++ [(key, .tables [[]])])
      | some (.tables elements) => some (put key (.tables (elements ++ [[]])) entries)
      | some _ => none)
    path .header entries

end Toml

end QubitWarden
