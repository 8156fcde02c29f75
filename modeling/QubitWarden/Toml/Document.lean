import QubitWarden.Toml.Scalar

/-!
# TOML documents

Values of any kind, and the lines of a document: keys with values, table headers, comments.

* `value`: arrays and inline tables hold values, nested less than `maxDepth` deep.
* `document?`: the entries of a whole document.

The readers take fuel, of which every step uses one; the length of the text is enough.
-/

namespace QubitWarden.Toml.Reader

/-- The entries of an inline table. -/
def inlineEntries : List ((List String × String) × Toml) → Entries → Option Entries
  | [], entries => some entries
  | ((path, name), item) :: rest, entries =>
    (define item path name .inline entries).bind (inlineEntries rest)

mutual

/-- A value, inside `depth` others. -/
def value : (fuel depth : Nat) → List Char → Read Toml
  | 0, _, _ => none
  | fuel + 1, depth, cs =>
    match cs with
    | '"' :: _ => (string cs).map fun (t, rest) => (.string t, rest)
    | '\'' :: _ => (string cs).map fun (t, rest) => (.string t, rest)
    | '[' :: rest =>
      if maxDepth ≤ depth + 1 then none
      else (items fuel (depth + 1) rest).map fun (values, rest) => (.array values, rest)
    | '\x7b' :: rest =>
      if maxDepth ≤ depth + 1 then none
      else
        match skipBlank rest with
        | '\x7d' :: rest => some (.table .inline [], rest)
        | rest =>
          (pairs fuel (depth + 1) rest).bind fun (found, rest) =>
          (inlineEntries found []).map fun entries => (.table .inline entries, rest)
    | _ => scalar cs

/-- The items of an array up to its closing bracket. -/
def items : (fuel depth : Nat) → List Char → Read (List Toml)
  | 0, _, _ => none
  | fuel + 1, depth, cs =>
    match skipLines (cs.length + 1) cs with
    | none => none
    | some (']' :: rest) => some ([], rest)
    | some rest =>
      match value fuel depth rest with
      | none => none
      | some (item, rest) =>
        match skipLines (rest.length + 1) rest with
        | some (',' :: rest) =>
          (items fuel depth rest).map fun (more, rest) => (item :: more, rest)
        | some (']' :: rest) => some ([item], rest)
        | _ => none

/-- The keys and values of an inline table up to its closing brace. -/
def pairs : (fuel depth : Nat) → List Char → Read (List ((List String × String) × Toml))
  | 0, _, _ => none
  | fuel + 1, depth, cs =>
    match key cs with
    | some (name, '=' :: rest) =>
      match value fuel depth (skipBlank rest) with
      | none => none
      | some (item, rest) =>
        match skipBlank rest with
        | ',' :: rest =>
          (pairs fuel depth rest).map fun (more, rest) => ((name, item) :: more, rest)
        | '\x7d' :: rest => some ([(name, item)], rest)
        | _ => none
    | _ => none

end

/-- The entries read so far and the path of the table that is open. -/
structure Draft where
  entries : Entries
  current : List String

/-- The draft after a key with its value in the open table. -/
def Draft.define (d : Draft) (name : List String × String) (item : Toml) : Option Draft :=
  (update false (fun form entries => Toml.define item name.1 name.2 form entries) d.current .header
    d.entries).map fun entries => { d with entries }

/-- The draft after a header. -/
def Draft.open (d : Draft) (isArray : Bool) (name : List String × String) : Option Draft :=
  let opened :=
    if isArray then openArrayTable name.1 name.2 d.entries else openTable name.1 name.2 d.entries
  opened.map fun entries => { entries, current := name.1 ++ [name.2] }

/-- The lines of a document. -/
def lines : (fuel : Nat) → Draft → List Char → Option Draft
  | 0, _, _ => none
  | fuel + 1, d, cs =>
    match skipBlank cs with
    | [] => some d
    | '[' :: '[' :: rest =>
      match key rest with
      | some (name, ']' :: ']' :: rest) =>
        (lineEnd rest).bind fun rest => (d.open true name).bind fun d => lines fuel d rest
      | _ => none
    | '[' :: rest =>
      match key rest with
      | some (name, ']' :: rest) =>
        (lineEnd rest).bind fun rest => (d.open false name).bind fun d => lines fuel d rest
      | _ => none
    | rest =>
      match lineEnd rest with
      | some rest => lines fuel d rest
      | none =>
        match key rest with
        | some (name, '=' :: rest) =>
          let rest := skipBlank rest
          (value (rest.length + 1) 0 rest).bind fun (item, rest) =>
          (lineEnd rest).bind fun rest => (d.define name item).bind fun d => lines fuel d rest
        | _ => none

end QubitWarden.Toml.Reader

namespace QubitWarden.Toml

def document? (text : String) : Option Entries :=
  let cs := match text.toList with
    | '\uFEFF' :: rest => rest
    | cs => cs
  (Reader.lines (cs.length + 1) ⟨[], []⟩ cs).map Reader.Draft.entries

end QubitWarden.Toml
