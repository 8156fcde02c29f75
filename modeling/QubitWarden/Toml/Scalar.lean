import QubitWarden.Text.Numeral
import QubitWarden.Toml.Text
import QubitWarden.Toml.Value

/-!
# Numbers, dates and truth values in TOML

* `integer`: decimal with a sign, or hexadecimal, octal or binary; it has to fit 64 bits.
* `float`: its value is of no interest here, but one too large for a double is refused.
* `datetime`: a date, a time, or both with or without an offset; every field has to be in range.
-/

namespace QubitWarden.Toml.Reader

def isDigit (c : Char) : Bool := '0' ≤ c && c ≤ '9'

/-- Digits after the first, with single underscores between digits. -/
def moreDigits (isDigit : Char → Bool) : List Char → List Char × List Char
  | '_' :: c :: rest =>
    if isDigit c then ((c :: (moreDigits isDigit rest).1), (moreDigits isDigit rest).2)
    else ([], '_' :: c :: rest)
  | c :: rest =>
    if isDigit c then ((c :: (moreDigits isDigit rest).1), (moreDigits isDigit rest).2)
    else ([], c :: rest)
  | [] => ([], [])

/-- At least one digit, with single underscores between digits. -/
def digits (isDigit : Char → Bool) : List Char → Read (List Char)
  | c :: rest =>
    if isDigit c then some (c :: (moreDigits isDigit rest).1, (moreDigits isDigit rest).2) else none
  | [] => none

/-- A sign, where there is one; true for minus. -/
def sign : List Char → Bool × List Char
  | '-' :: rest => (true, rest)
  | '+' :: rest => (false, rest)
  | cs => (false, cs)

/-- Decimal digits without a leading zero. -/
def unpadded : List Char → Read (List Char)
  | '0' :: rest => some (['0'], rest)
  | cs => digits isDigit cs

/-- The number of decimal digits. -/
def decimalValue (ds : List Char) : Nat := (Text.ofDigits? ds).getD 0

/-! ## Integers -/

/-- The number of digits of a base. -/
def baseValue (base : Nat) (ds : List Char) : Nat :=
  ds.foldl (fun acc c => base * acc + (hexDigit? c).getD 0) 0

/-- The integer after the mark of its base. -/
def basedInteger (base : Nat) (isDigit : Char → Bool) (cs : List Char) : Read Int :=
  (digits isDigit cs).bind fun (ds, rest) =>
  let n := baseValue base ds
  if n < UInt64.size / 2 then some (n, rest) else none

def integer (cs : List Char) : Read Int :=
  match cs with
  | '0' :: 'x' :: rest => basedInteger 16 (fun c => (hexDigit? c).isSome) rest
  | '0' :: 'o' :: rest => basedInteger 8 (fun c => '0' ≤ c && c ≤ '7') rest
  | '0' :: 'b' :: rest => basedInteger 2 (fun c => c = '0' || c = '1') rest
  | _ =>
    let (negative, cs) := sign cs
    (unpadded cs).bind fun (ds, rest) =>
    let n := decimalValue ds
    if negative then
      if n ≤ UInt64.size / 2 then some (-(n : Int), rest) else none
    else if n < UInt64.size / 2 then some (n, rest)
    else none

/-! ## Floats -/

/-- The exponent, where there is one. -/
def exponent (cs : List Char) : Option (Option Int × List Char) :=
  match cs with
  | c :: rest =>
    if c = 'e' ∨ c = 'E' then
      let (negative, rest) := sign rest
      (digits isDigit rest).map fun (ds, rest) =>
        let n : Int := decimalValue ds
        (some (if negative then -n else n), rest)
    else some (none, cs)
  | [] => some (none, [])

/-- Whether `mantissa * 10 ^ scale` rounds to more than the largest double: it is at least halfway
from the largest double to the next power of two. -/
def exceedsDouble (mantissa : Nat) (scale : Int) : Bool :=
  let limit := Nat.pow 2 1024 - Nat.pow 2 970
  let size : Int := (Nat.toDigits 10 mantissa).length + scale
  if mantissa = 0 ∨ size < 300 then false
  else if 320 < size then true
  else if 0 ≤ scale then limit ≤ mantissa * Nat.pow 10 scale.toNat
  else limit * Nat.pow 10 (-scale).toNat ≤ mantissa

/-- A float with a point or an exponent. -/
def pointFloat (cs : List Char) : Read Unit :=
  let (negative, cs) := sign cs
  (unpadded cs).bind fun (whole, rest) =>
  let places : Option (Option (List Char) × List Char) :=
    match rest with
    | '.' :: rest => (digits isDigit rest).map fun (ds, rest) => (some ds, rest)
    | _ => some (none, rest)
  places.bind fun (places, rest) =>
  (exponent rest).bind fun (scale, rest) =>
  if places.isNone ∧ scale.isNone then none
  else
    let ds := places.getD []
    if !negative ∧ exceedsDouble (decimalValue (whole ++ ds)) (scale.getD 0 - ds.length) then none
    else some ((), rest)

def float (cs : List Char) : Read Unit :=
  match (sign cs).2 with
  | 'i' :: 'n' :: 'f' :: rest => some ((), rest)
  | 'n' :: 'a' :: 'n' :: rest => some ((), rest)
  | _ => pointFloat cs

/-! ## Dates and times -/

/-- A number of exactly `width` digits within bounds. -/
def field (width low high : Nat) (cs : List Char) : Read Nat :=
  let ds := cs.take width
  if ds.length = width ∧ ds.all isDigit then
    let n := decimalValue ds
    if low ≤ n ∧ n ≤ high then some (n, cs.drop width) else none
  else none

/-- What follows an expected character. -/
def expect (c : Char) : List Char → Option (List Char)
  | d :: rest => if d = c then some rest else none
  | [] => none

/-- The number of days of a month. -/
def daysOf (year month : Nat) : Nat :=
  if month = 2 then
    if year % 4 = 0 ∧ (year % 100 ≠ 0 ∨ year % 400 = 0) then 29 else 28
  else if month = 4 ∨ month = 6 ∨ month = 9 ∨ month = 11 then 30
  else 31

/-- A date; the result is what follows it. -/
def date (cs : List Char) : Option (List Char) :=
  (field 4 0 9999 cs).bind fun (year, rest) =>
  (expect '-' rest).bind fun rest =>
  (field 2 1 12 rest).bind fun (month, rest) =>
  (expect '-' rest).bind fun rest =>
  (field 2 1 (daysOf year month) rest).map fun (_, rest) => rest

/-- A time of day; the result is what follows it. -/
def time (cs : List Char) : Option (List Char) :=
  (field 2 0 23 cs).bind fun (_, rest) =>
  (expect ':' rest).bind fun rest =>
  (field 2 0 59 rest).bind fun (_, rest) =>
  (expect ':' rest).bind fun rest =>
  (field 2 0 60 rest).bind fun (_, rest) =>
  match rest with
  | '.' :: c :: more => if isDigit c then some (more.dropWhile isDigit) else some rest
  | _ => some rest

/-- An offset, where there is one; the result is what follows it. -/
def offset (cs : List Char) : Option (List Char) :=
  match cs with
  | c :: rest =>
    if c = 'Z' ∨ c = 'z' then some rest
    else if c = '+' ∨ c = '-' then
      (field 2 0 23 rest).bind fun (_, rest) =>
      (expect ':' rest).bind fun rest =>
      (field 2 0 59 rest).map fun (_, rest) => rest
    else some cs
  | [] => some []

/-- A date, a time, or a date with a time. -/
def datetime (cs : List Char) : Read Unit :=
  match date cs with
  | none => (time cs).map fun rest => ((), rest)
  | some rest =>
    match rest with
    | c :: more =>
      if c = 'T' ∨ c = 't' ∨ c = ' ' then
        match time more with
        | some more => (offset more).map fun rest => ((), rest)
        | none => some ((), rest)
      else some ((), rest)
    | [] => some ((), [])

/-- A number, a date or a truth value. -/
def scalar (cs : List Char) : Read Toml :=
  match cs with
  | 't' :: 'r' :: 'u' :: 'e' :: rest => some (.bool true, rest)
  | 'f' :: 'a' :: 'l' :: 's' :: 'e' :: rest => some (.bool false, rest)
  | _ =>
    match datetime cs with
    | some (_, rest) => some (.datetime, rest)
    | none =>
      match float cs with
      | some (_, rest) => some (.float, rest)
      | none => (integer cs).map fun (n, rest) => (.integer n, rest)

end QubitWarden.Toml.Reader
