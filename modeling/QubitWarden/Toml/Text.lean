/-!
# Texts and keys in TOML

Blanks, comments, line ends, the four kinds of string literal and dotted keys. A reader gives what
it read and the characters after it.

* `comment`, `newline`: a raw control character other than the tab is nowhere allowed.
* `string`: quoted with or without escapes, on one line or on several.
* `key`: bare or quoted parts with dots between.
-/

namespace QubitWarden.Toml.Reader

/-- What a reader gives. -/
abbrev Read (α : Type) := Option (α × List Char)

/-- The characters after leading blanks. -/
def skipBlank (cs : List Char) : List Char := cs.dropWhile fun c => c = ' ' ∨ c = '\t'

/-- A line end, and what follows it. -/
def newline : List Char → Option (List Char)
  | '\n' :: rest => some rest
  | '\r' :: '\n' :: rest => some rest
  | _ => none

/-- Whether a character may stand in a comment or a literal: no control character but the tab. -/
def isPrintable (c : Char) : Bool := c = '\t' || (0x20 ≤ c.toNat && c.toNat ≠ 0x7F)

/-- What follows a comment, if there is one. -/
def skipComment : List Char → List Char
  | '#' :: rest => rest.dropWhile isPrintable
  | cs => cs

/-- The next line, after blanks and a comment; at the end of the text, nothing. -/
def lineEnd (cs : List Char) : Option (List Char) :=
  match skipComment (skipBlank cs) with
  | [] => some []
  | rest => newline rest

/-- The characters after blanks, comments and line ends. -/
def skipLines : (fuel : Nat) → List Char → Option (List Char)
  | 0, _ => none
  | fuel + 1, cs =>
    match skipBlank cs with
    | '#' :: rest => (newline (skipComment ('#' :: rest))).bind (skipLines fuel)
    | rest =>
      match newline rest with
      | some rest => skipLines fuel rest
      | none => some rest

/-! ## Escapes -/

def hexDigit? (c : Char) : Option Nat :=
  if '0' ≤ c ∧ c ≤ '9' then some (c.toNat - 48)
  else if 'a' ≤ c ∧ c ≤ 'f' then some (c.toNat - 87)
  else if 'A' ≤ c ∧ c ≤ 'F' then some (c.toNat - 55)
  else none

/-- The number of `count` hexadecimal digits that continue `acc`. -/
def hexNumber : (count : Nat) → (acc : Nat) → List Char → Read Nat
  | 0, acc, cs => some (acc, cs)
  | count + 1, acc, c :: rest => (hexDigit? c).bind fun d => hexNumber count (16 * acc + d) rest
  | _ + 1, _, [] => none

/-- The character with this number, if there is one. -/
def scalar? (n : Nat) : Option Char :=
  if n < 0xD800 ∨ (0xDFFF < n ∧ n < 0x110000) then some (Char.ofNat n) else none

/-- An escape after its backslash. -/
def escape : List Char → Read Char
  | 'b' :: rest => some ('\x08', rest)
  | 't' :: rest => some ('\t', rest)
  | 'n' :: rest => some ('\n', rest)
  | 'f' :: rest => some ('\x0c', rest)
  | 'r' :: rest => some ('\r', rest)
  | '"' :: rest => some ('"', rest)
  | '\\' :: rest => some ('\\', rest)
  | 'u' :: rest => (hexNumber 4 0 rest).bind fun (n, rest) => (scalar? n).map fun c => (c, rest)
  | 'U' :: rest => (hexNumber 8 0 rest).bind fun (n, rest) => (scalar? n).map fun c => (c, rest)
  | _ => none

/-! ## String literals -/

/-- A character in front of a text that was read. -/
def withChar (c : Char) (read : Read (List Char)) : Read (List Char) :=
  read.map fun (text, rest) => (c :: text, rest)

/-- A text in double quotes after the opening one. -/
def basicBody : (fuel : Nat) → List Char → Read (List Char)
  | 0, _ => none
  | _ + 1, [] => none
  | fuel + 1, c :: rest =>
    if c = '"' then some ([], rest)
    else if c = '\\' then (escape rest).bind fun (e, rest) => withChar e (basicBody fuel rest)
    else if isPrintable c then withChar c (basicBody fuel rest)
    else none

/-- A text in single quotes after the opening one. -/
def literalBody : List Char → Read (List Char)
  | [] => none
  | c :: rest =>
    if c = '\'' then some ([], rest)
    else if isPrintable c then withChar c (literalBody rest)
    else none

/-- The end of a text on several lines, from its closing run of quotes: up to two of them belong to
the text. -/
def closingQuotes (quote : Char) (cs : List Char) : Read (List Char) :=
  let run := cs.takeWhile (· = quote)
  let rest := cs.dropWhile (· = quote)
  if run.length ≤ 5 then some (run.drop 3, rest) else none

/-- Whether the characters begin with three quotes. -/
def startsTriple (quote : Char) (cs : List Char) : Bool := cs.take 3 = [quote, quote, quote]

/-- The characters after blanks and line ends. -/
def skipSpace : List Char → List Char
  | '\r' :: '\n' :: rest => skipSpace rest
  | c :: rest => if c = ' ' ∨ c = '\t' ∨ c = '\n' then skipSpace rest else c :: rest
  | [] => []

/-- The characters after a line end and all blanks and line ends that follow, for a backslash at the
end of a line. -/
def foldedLine (cs : List Char) : Option (List Char) := (newline (skipBlank cs)).map skipSpace

/-- A text in three double quotes after the opening ones. -/
def multilineBasicBody : (fuel : Nat) → List Char → Read (List Char)
  | 0, _ => none
  | _ + 1, [] => none
  | fuel + 1, c :: rest =>
    if startsTriple '"' (c :: rest) then closingQuotes '"' (c :: rest)
    else if c = '\\' then
      match foldedLine rest with
      | some rest => multilineBasicBody fuel rest
      | none => (escape rest).bind fun (e, rest) => withChar e (multilineBasicBody fuel rest)
    else
      match newline (c :: rest) with
      | some rest => withChar '\n' (multilineBasicBody fuel rest)
      | none => if isPrintable c then withChar c (multilineBasicBody fuel rest) else none

/-- A text in three single quotes after the opening ones. -/
def multilineLiteralBody : (fuel : Nat) → List Char → Read (List Char)
  | 0, _ => none
  | _ + 1, [] => none
  | fuel + 1, c :: rest =>
    if startsTriple '\'' (c :: rest) then closingQuotes '\'' (c :: rest)
    else
      match newline (c :: rest) with
      | some rest => withChar '\n' (multilineLiteralBody fuel rest)
      | none => if isPrintable c then withChar c (multilineLiteralBody fuel rest) else none

/-- The characters without a line end at their beginning. -/
def dropNewline (cs : List Char) : List Char := (newline cs).getD cs

/-- A quoted text on one line. -/
def quoted : List Char → Read String
  | '"' :: rest => (basicBody (rest.length + 1) rest).map fun (t, rest) => (String.ofList t, rest)
  | '\'' :: rest => (literalBody rest).map fun (t, rest) => (String.ofList t, rest)
  | _ => none

def string (cs : List Char) : Read String :=
  if startsTriple '"' cs then
    let body := dropNewline (cs.drop 3)
    (multilineBasicBody (body.length + 1) body).map fun (t, rest) => (String.ofList t, rest)
  else if startsTriple '\'' cs then
    let body := dropNewline (cs.drop 3)
    (multilineLiteralBody (body.length + 1) body).map fun (t, rest) => (String.ofList t, rest)
  else quoted cs

/-! ## Keys -/

/-- Whether a character may stand in a key without quotes. -/
def isBare (c : Char) : Bool :=
  ('a' ≤ c && c ≤ 'z') || ('A' ≤ c && c ≤ 'Z') || ('0' ≤ c && c ≤ '9') || c = '_' || c = '-'

def keyPart (cs : List Char) : Read String :=
  match cs with
  | '"' :: _ => quoted cs
  | '\'' :: _ => quoted cs
  | _ =>
    match cs.takeWhile isBare with
    | [] => none
    | name => some (String.ofList name, cs.dropWhile isBare)

/-- The parts of a key with dots between, and the blanks around them. -/
def keyParts : (fuel : Nat) → List Char → Read (List String)
  | 0, _ => none
  | fuel + 1, cs =>
    (keyPart (skipBlank cs)).bind fun (part, rest) =>
    match skipBlank rest with
    | '.' :: rest => (keyParts fuel rest).map fun (parts, rest) => (part :: parts, rest)
    | rest => some ([part], rest)

/-- How deep keys and values may be nested. -/
def maxDepth : Nat := 80

/-- A key: the parts before the last one, and the last one. -/
def key (cs : List Char) : Read (List String × String) :=
  (keyParts (cs.length + 1) cs).bind fun (parts, rest) =>
  if maxDepth ≤ parts.length then none
  else parts.getLast?.map fun last => ((parts.dropLast, last), rest)

end QubitWarden.Toml.Reader
