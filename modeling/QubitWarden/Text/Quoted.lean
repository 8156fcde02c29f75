/-!
# Single characters in messages

A message shows a character of the first 256 between single quotes, and never as itself when it has
no picture of its own.

* `isPictured`: the character is neither a control character nor a blank other than the space, nor
  the soft hyphen.
* `pictured`: the quote and the backslash after a backslash; zero, the tab and the two line ends by
  a letter; any other character without a picture by its number.
* `quoted`: the picture between quotes.
-/

namespace QubitWarden.Text

/-- Whether a character below U+0100 is shown as itself. -/
def isPictured (c : Char) : Bool :=
  let n := c.toNat
  (0x20 ≤ n && n < 0x7F) || (0xA0 < n && n ≠ 0xAD)

/-- What stands for a character in a message. -/
def pictured (c : Char) : List Char :=
  if c = '\x27' ∨ c = '\\' then ['\\', c]
  else if c = '\x00' then ['\\', '0']
  else if c = '\t' then ['\\', 't']
  else if c = '\n' then ['\\', 'n']
  else if c = '\r' then ['\\', 'r']
  else if isPictured c then [c]
  else '\\' :: 'u' :: '\x7b' :: Nat.toDigits 16 c.toNat ++ ['\x7d']

def quoted (c : Char) : String := String.ofList ('\x27' :: pictured c ++ ['\x27'])

end QubitWarden.Text
