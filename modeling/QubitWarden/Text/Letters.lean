/-!
# Case folding

Key words are compared after the letters `A` to `Z` are put in lower case; no other character
changes.

* `lowerLetter`, `lower`: on a character and on a text.
* `lowerByte`: on a byte of a text.
-/

namespace QubitWarden.Text

/-- The lower-case form of `A` to `Z`, and any other character itself. -/
def lowerLetter (c : Char) : Char :=
  if 'A' ≤ c ∧ c ≤ 'Z' then Char.ofNat (c.toNat + 32) else c

/-- The lower-case form of the byte of a letter from `A` to `Z`, and any other byte itself. -/
def lowerByte (b : UInt8) : UInt8 := if 65 ≤ b ∧ b ≤ 90 then b + 32 else b

/-- The text with the letters `A` to `Z` in lower case. -/
def lower (s : String) : String := String.ofList (s.toList.map lowerLetter)

end QubitWarden.Text
