/-!
# Unsigned numerals

A numeral is an optional `+` and then at least one of the digits `0` to `9`, leading zeros allowed.
Its value has to fit the word it is read into.

* `ofDigits?`: the value of a run of digits.
* `natural?`, `word32?`, `word64?`: the number a numeral stands for, unbounded or within a word.
* `boolean?`: exactly `true` or `false`.
* `ofDigits?_decimal`: the digits of a number are read as this number.
-/

namespace QubitWarden.Text

/-- The value of the digit `c`. -/
def digit? (c : Char) : Option Nat :=
  if '0' ≤ c ∧ c ≤ '9' then some (c.toNat - '0'.toNat) else none

/-- The number that continues `acc` by the given digits. -/
def digitsFrom? : (acc : Nat) → List Char → Option Nat
  | acc, [] => some acc
  | acc, c :: rest => (digit? c).bind fun d => digitsFrom? (10 * acc + d) rest

/-- The number written by a non-empty run of digits. -/
def ofDigits? : List Char → Option Nat
  | [] => none
  | c :: rest => digitsFrom? 0 (c :: rest)

/-- The number that a numeral stands for. -/
def natural? (s : String) : Option Nat :=
  match s.toList with
  | '+' :: rest => ofDigits? rest
  | cs => ofDigits? cs

/-- The value of a numeral below `2 ^ 32`. -/
def word32? (s : String) : Option UInt32 :=
  (natural? s).bind fun n => if n < UInt32.size then some (UInt32.ofNat n) else none

/-- The value of a numeral below `2 ^ 64`. -/
def word64? (s : String) : Option UInt64 :=
  (natural? s).bind fun n => if n < UInt64.size then some (UInt64.ofNat n) else none

/-- The truth value of `true` or `false`. -/
def boolean? (s : String) : Option Bool :=
  if s = "true" then some true else if s = "false" then some false else none

/-- The decimal digits of `n`, without leading zeros. -/
def decimal (n : Nat) : String := Nat.repr n

theorem digit?_of_isDigit {c : Char} (h : c.isDigit = true) :
    digit? c = some (c.toNat - '0'.toNat) := by
  simp only [Char.isDigit, Bool.and_eq_true, decide_eq_true_eq] at h
  exact if_pos h

theorem digitsFrom?_eq (acc : Nat) {cs : List Char} (h : ∀ c ∈ cs, c.isDigit = true) :
    digitsFrom? acc cs = some (Nat.ofDigitChars 10 cs acc) := by
  induction cs generalizing acc with
  | nil => rfl
  | cons c rest ih =>
    rw [List.forall_mem_cons] at h
    rw [digitsFrom?, digit?_of_isDigit h.1, Option.bind_some, ih _ h.2]
    rfl

theorem toList_decimal (n : Nat) : (decimal n).toList = Nat.toDigits 10 n := by
  rw [decimal, Nat.repr_eq_ofList_toDigits, String.toList_ofList]

theorem isDigit_of_mem_decimal {n : Nat} {c : Char} (h : c ∈ (decimal n).toList) :
    c.isDigit = true := by
  rw [toList_decimal] at h
  exact Nat.isDigit_of_mem_toDigits (by decide) (by decide) h

theorem ofDigits?_decimal (n : Nat) : ofDigits? (decimal n).toList = some n := by
  have hvalue := digitsFrom?_eq 0 fun c (hc : c ∈ (decimal n).toList) => isDigit_of_mem_decimal hc
  rw [toList_decimal, Nat.ofDigitChars_toDigits (by decide) (by decide)] at hvalue
  rw [toList_decimal]
  cases hdigits : Nat.toDigits 10 n with
  | nil => exact absurd hdigits Nat.toDigits_ne_nil
  | cons c rest => rw [ofDigits?, ← hdigits, hvalue]

end QubitWarden.Text
