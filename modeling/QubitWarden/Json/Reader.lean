import QubitWarden.Bytes.Utf8
import QubitWarden.Json.Value
import QubitWarden.Text.Numeral

/-!
# Reading JSON

The value that a byte string stands for. Blanks may stand between tokens, nothing may follow the
value, and nesting is not limited.

* `stringLiteral`: a string literal after its opening quote. A lone half of a surrogate pair, or a
  byte that is no character, leaves the literal without a text; a raw control character ends the
  reading.
* `numeral`: a numeral, without leading zeros.
* `parse?`: the value of a whole byte string.

The nested readers take fuel; `parse?` gives them twice the length of the text, and each reader
uses up a character at least every second step.
-/

namespace QubitWarden.Json

/-- The characters still to be read; `none` is a byte that belongs to no character. -/
abbrev Input := List (Option Char)

/-- The input after its leading blanks. -/
def skipBlank : Input → Input
  | some c :: rest =>
    if c = ' ' ∨ c = '\n' ∨ c = '\t' ∨ c = '\r' then skipBlank rest else some c :: rest
  | rest => rest

/-! ## Strings -/

def hexDigit? (c : Char) : Option Nat :=
  if '0' ≤ c ∧ c ≤ '9' then some (c.toNat - 48)
  else if 'a' ≤ c ∧ c ≤ 'f' then some (c.toNat - 87)
  else if 'A' ≤ c ∧ c ≤ 'F' then some (c.toNat - 55)
  else none

/-- The number of four hexadecimal digits. -/
def codeUnit? (a b c d : Char) : Option Nat :=
  match hexDigit? a, hexDigit? b, hexDigit? c, hexDigit? d with
  | some a, some b, some c, some d => some (4096 * a + 256 * b + 16 * c + d)
  | _, _, _, _ => none

/-- The first half of a surrogate pair. -/
def isHigh (u : Nat) : Bool := 0xD800 ≤ u && u < 0xDC00

/-- The second half of a surrogate pair. -/
def isLow (u : Nat) : Bool := 0xDC00 ≤ u && u < 0xE000

/-- The character that an escape of one letter stands for. -/
def shortEscape? (c : Char) : Option Char :=
  if c = '"' ∨ c = '\\' ∨ c = '/' then some c
  else if c = 'b' then some '\x08'
  else if c = 'f' then some '\x0c'
  else if c = 'n' then some '\n'
  else if c = 'r' then some '\r'
  else if c = 't' then some '\t'
  else none

/-- What a string literal is made of. -/
inductive Piece where
  /-- A character that stands for itself, or an escape of one letter. -/
  | char (c : Char)
  /-- An escape of four digits: a character, or half of a surrogate pair. -/
  | unit (u : Nat)
  /-- A byte that belongs to no character. -/
  | stray
  deriving DecidableEq

/-- The pieces of a string literal after its opening quote, and what follows the closing one. -/
def pieces : Input → Option (List Piece × Input)
  | [] => none
  | none :: rest => (pieces rest).map fun (ps, rest) => (.stray :: ps, rest)
  | some c :: rest =>
    if c = '"' then some ([], rest)
    else if c = '\\' then
      match rest with
      | some 'u' :: some p :: some q :: some r :: some s :: rest =>
        match codeUnit? p q r s with
        | none => none
        | some u => (pieces rest).map fun (ps, rest) => (.unit u :: ps, rest)
      | some e :: rest =>
        match shortEscape? e with
        | none => none
        | some c => (pieces rest).map fun (ps, rest) => (.char c :: ps, rest)
      | _ => none
    else if c.toNat < 32 then none
    else (pieces rest).map fun (ps, rest) => (.char c :: ps, rest)

/-- The text of the pieces: the halves of a pair together are one character. -/
def textOfPieces? : List Piece → Option (List Char)
  | [] => some []
  | .char c :: rest => (textOfPieces? rest).map (c :: ·)
  | .unit u :: .unit v :: rest =>
    if isHigh u then
      if isLow v then
        (textOfPieces? rest).map (Char.ofNat (0x10000 + (u - 0xD800) * 1024 + (v - 0xDC00)) :: ·)
      else none
    else if isLow u then none
    else (textOfPieces? (.unit v :: rest)).map (Char.ofNat u :: ·)
  | .unit u :: rest =>
    if isHigh u || isLow u then none else (textOfPieces? rest).map (Char.ofNat u :: ·)
  | .stray :: _ => none

/-- A string literal after its opening quote. -/
def stringLiteral (input : Input) : Option (Option String × Input) :=
  (pieces input).map fun (ps, rest) => ((textOfPieces? ps).map String.ofList, rest)

/-! ## Numbers -/

/-- The digits that the input begins with, and the rest. -/
def digitRun : Input → List Char × Input
  | some c :: rest =>
    if '0' ≤ c ∧ c ≤ '9' then ((c :: (digitRun rest).1), (digitRun rest).2)
    else ([], some c :: rest)
  | rest => ([], rest)

def someDigits (input : Input) : Option (List Char × Input) :=
  match digitRun input with
  | ([], _) => none
  | run => some run

/-- At least one digit, and no further one after a leading zero. -/
def integerDigits (input : Input) : Option (List Char × Input) :=
  match someDigits input with
  | some ('0' :: _ :: _, _) => none
  | run => run

/-- The point and the digits after it, where there is a point. -/
def fraction (input : Input) : Option (List Char × Input) :=
  match input with
  | some '.' :: rest => (someDigits rest).map fun (ds, rest) => ('.' :: ds, rest)
  | _ => some ([], input)

/-- The exponent with its mark and sign, where there is one. -/
def exponent (input : Input) : Option (List Char × Input) :=
  match input with
  | some c :: rest =>
    if c = 'e' ∨ c = 'E' then
      match rest with
      | some s :: after =>
        if s = '+' ∨ s = '-' then
          (someDigits after).map fun (ds, rest) => (c :: s :: ds, rest)
        else (someDigits rest).map fun (ds, rest) => (c :: ds, rest)
      | _ => none
    else some ([], input)
  | _ => some ([], input)

/-- A numeral without a sign; `sign` stands in front of its spelling. -/
def unsignedNumber (sign : List Char) (input : Input) : Option (Json × Input) :=
  (integerDigits input).bind fun (digits, rest) =>
  (fraction rest).bind fun (places, rest) =>
  (exponent rest).bind fun (scale, rest) =>
  match sign, places, scale with
  | [], [], [] => (Text.ofDigits? digits).map fun n => (.natural n, rest)
  | _, _, _ => some (.number (String.ofList (sign ++ digits ++ places ++ scale)), rest)

/-- A numeral with or without a sign. -/
def numeral (input : Input) : Option (Json × Input) :=
  match input with
  | some '-' :: rest => unsignedNumber ['-'] rest
  | _ => unsignedNumber [] input

/-! ## Values -/

/-- The value of a word that stands for itself. -/
def keyword (input : Input) : Option (Json × Input) :=
  match input with
  | some 'n' :: some 'u' :: some 'l' :: some 'l' :: rest => some (.null, rest)
  | some 't' :: some 'r' :: some 'u' :: some 'e' :: rest => some (.bool true, rest)
  | some 'f' :: some 'a' :: some 'l' :: some 's' :: some 'e' :: rest => some (.bool false, rest)
  | _ => none

mutual

/-- A value and what follows it. -/
def value : (fuel : Nat) → Input → Option (Json × Input)
  | 0, _ => none
  | fuel + 1, input =>
    match skipBlank input with
    | some c :: rest =>
      if c = '"' then (stringLiteral rest).map fun (text, rest) => (.string text, rest)
      else if c = '[' then
        match skipBlank rest with
        | some ']' :: rest => some (.array [], rest)
        | rest => (items fuel rest).map fun (values, rest) => (.array values, rest)
      else if c = '\x7b' then
        match skipBlank rest with
        | some '\x7d' :: rest => some (.object [], rest)
        | rest => (members fuel rest).map fun (pairs, rest) => (.object pairs, rest)
      else if c = 'n' ∨ c = 't' ∨ c = 'f' then keyword (some c :: rest)
      else numeral (some c :: rest)
    | _ => none

/-- The items of an array up to its closing bracket. -/
def items : (fuel : Nat) → Input → Option (List Json × Input)
  | 0, _ => none
  | fuel + 1, input =>
    match value fuel input with
    | none => none
    | some (item, rest) =>
      match skipBlank rest with
      | some ']' :: rest => some ([item], rest)
      | some ',' :: rest => (items fuel rest).map fun (more, rest) => (item :: more, rest)
      | _ => none

/-- The members of an object up to its closing brace. -/
def members : (fuel : Nat) → Input → Option (List (Option String × Json) × Input)
  | 0, _ => none
  | fuel + 1, input =>
    match skipBlank input with
    | some '"' :: rest =>
      match stringLiteral rest with
      | none => none
      | some (key, rest) =>
        match skipBlank rest with
        | some ':' :: rest =>
          match value fuel rest with
          | none => none
          | some (item, rest) =>
            match skipBlank rest with
            | some '\x7d' :: rest => some ([(key, item)], rest)
            | some ',' :: rest =>
              (members fuel rest).map fun (more, rest) => ((key, item) :: more, rest)
            | _ => none
        | _ => none
    | _ => none

end

/-- The value that a byte string stands for. -/
def parse? (bytes : Bytes) : Option Json :=
  let input := Utf8.scan bytes
  match value (2 * input.length + 2) input with
  | some (result, rest) => if (skipBlank rest).isEmpty then some result else none
  | none => none

end QubitWarden.Json
