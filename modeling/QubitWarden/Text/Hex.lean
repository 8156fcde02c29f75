import QubitWarden.Bytes.Utf8
import QubitWarden.Text.Quoted

/-!
# Hexadecimal

Byte strings as pairs of hexadecimal digits: written in lower case, read in either case.

* `encode`: two lower-case digits for each byte.
* `decode`: an odd number of bytes is reported first, then the first byte that is no digit.
* `decodePairs_encodeChars`: the digits of a byte string are read back.
-/

namespace QubitWarden.Hex

/-- The lower-case digit of a number below 16. -/
def digit (n : Nat) : Char := Nat.digitChar n

/-- The value of the ASCII byte of a hexadecimal digit. -/
def value? (byte : UInt8) : Option UInt8 :=
  if 48 ≤ byte ∧ byte ≤ 57 then some (byte - 48)
  else if 97 ≤ byte ∧ byte ≤ 102 then some (byte - 87)
  else if 65 ≤ byte ∧ byte ≤ 70 then some (byte - 55)
  else none

/-- The digits of a byte string, two for each byte. -/
def encodeChars (bytes : Bytes) : List Char :=
  bytes.flatMap fun b => [digit (b.toNat / 16), digit (b.toNat % 16)]

def encode (bytes : Bytes) : String := String.ofList (encodeChars bytes)

/-- Why a text is no byte string. -/
inductive Error where
  /-- The text has an odd number of bytes. -/
  | oddLength
  /-- The byte at this index is no hexadecimal digit. -/
  | invalidCharacter (byte : UInt8) (index : Nat)
  deriving DecidableEq, Repr

/-- The wording of an error; the offending byte is shown as the character of the same number,
between quotes. -/
def Error.message : Error → String
  | .oddLength => "Odd number of digits"
  | .invalidCharacter byte index =>
    "Invalid character " ++ Text.quoted (Char.ofNat byte.toNat) ++ " at position " ++ toString index

/-- The bytes of the digit pairs; `index` is the position of the first one. -/
def decodePairs : (index : Nat) → Bytes → Except Error Bytes
  | _, [] => .ok []
  | _, [_] => .error .oddLength
  | index, high :: low :: rest =>
    match value? high, value? low with
    | none, _ => .error (.invalidCharacter high index)
    | _, none => .error (.invalidCharacter low (index + 1))
    | some h, some l => (decodePairs (index + 2) rest).map fun bytes => (16 * h + l) :: bytes

/-- The byte string that a text of digits stands for. -/
def decode (s : String) : Except Error Bytes :=
  let bytes := Utf8.encode s
  if bytes.length % 2 = 1 then .error .oddLength else decodePairs 0 bytes

/-! ## Reading what was written -/

theorem length_encodeChars (bytes : Bytes) : (encodeChars bytes).length = 2 * bytes.length := by
  induction bytes with
  | nil => rfl
  | cons b rest ih =>
    rw [encodeChars] at ih
    simp only [encodeChars, List.flatMap_cons, List.length_append, List.length_cons,
      List.length_nil, ih]
    omega

theorem digit_ascii : ∀ n, n < 16 → (digit n).val ≤ 127 := by decide

theorem value?_digit :
    ∀ n, n < 16 → value? (Utf8.asciiByte (digit n)) = some (UInt8.ofNat n) := by decide

theorem exists_digit_of_mem_encodeChars {bytes : Bytes} {c : Char} (h : c ∈ encodeChars bytes) :
    ∃ n, n < 16 ∧ c = digit n := by
  obtain ⟨b, -, hc⟩ := List.mem_flatMap.1 h
  have hb := b.toNat_lt
  simp only [List.mem_cons, List.not_mem_nil, or_false] at hc
  rcases hc with rfl | rfl
  · exact ⟨_, by omega, rfl⟩
  · exact ⟨_, by omega, rfl⟩

theorem encodeChars_ascii {bytes : Bytes} {c : Char} (h : c ∈ encodeChars bytes) : c.val ≤ 127 := by
  obtain ⟨n, hn, rfl⟩ := exists_digit_of_mem_encodeChars h
  exact digit_ascii n hn

theorem digits_toNat (b : UInt8) :
    16 * UInt8.ofNat (b.toNat / 16) + UInt8.ofNat (b.toNat % 16) = b := by
  have hb := b.toNat_lt
  apply UInt8.toNat_inj.1
  have hsixteen : (16 : UInt8).toNat = 16 := rfl
  simp only [UInt8.toNat_add, UInt8.toNat_mul, UInt8.toNat_ofNat', hsixteen]
  omega

theorem decodePairs_encodeChars (index : Nat) (bytes : Bytes) :
    decodePairs index ((encodeChars bytes).map Utf8.asciiByte) = .ok bytes := by
  induction bytes generalizing index with
  | nil => rfl
  | cons b rest ih =>
    have hb := b.toNat_lt
    have hrest := ih (index + 2)
    rw [encodeChars] at hrest
    simp only [encodeChars, List.flatMap_cons, List.cons_append, List.nil_append, List.map_cons,
      decodePairs, value?_digit _ (show b.toNat / 16 < 16 by omega),
      value?_digit _ (show b.toNat % 16 < 16 by omega), hrest, Except.map, digits_toNat]

end QubitWarden.Hex
