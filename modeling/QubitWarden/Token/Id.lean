import QubitWarden.Bytes.Utf8
import QubitWarden.Text.Hex
import QubitWarden.Text.Letters

/-!
# Token identifiers

An identifier is 16 bytes. Its text has 32 hexadecimal digits in groups of 8, 4, 4, 4 and 12 with
hyphens between; the reader also takes the digits alone, the groups in braces, and the groups after
`urn:uuid:`, in either case.

* `TokenId.drawn`: the identifier made of 16 random bytes, with its version and variant bits set.
* `TokenId.toText`, `TokenId.parse?`: writing and reading; `parse?_toText`.
-/

namespace QubitWarden

/-- The identifier of a token. -/
structure TokenId where
  block : Block 16
  deriving DecidableEq, Inhabited

namespace TokenId

/-- The bytes of the identifier. -/
def toBytes (id : TokenId) : Bytes := id.block.toBytes

@[simp] theorem length_toBytes (id : TokenId) : id.toBytes.length = 16 := id.block.length_toBytes

/-- Sets the version bits of byte 6 and the variant bits of byte 8. -/
def stamp (index : Nat) (byte : UInt8) : UInt8 :=
  if index = 6 then (byte &&& 0x0F) ||| 0x40
  else if index = 8 then (byte &&& 0x3F) ||| 0x80
  else byte

/-- The identifier made of random bytes: version 4 in byte 6, the standard variant in byte 8. -/
def drawn (random : Block 16) : TokenId where
  block := { toBytes := random.toBytes.mapIdx stamp, length_toBytes := by simp }

/-! ## Text -/

/-- Cuts digits into groups of 8, 4, 4, 4 and 12 with hyphens between. -/
def grouped (digits : List Char) : List Char :=
  digits.take 8 ++ '-' :: (digits.drop 8).take 4 ++ '-' :: (digits.drop 12).take 4 ++
    '-' :: (digits.drop 16).take 4 ++ '-' :: digits.drop 20

/-- The hyphenated text in lower case. -/
def toText (id : TokenId) : String := String.ofList (grouped (Hex.encodeChars id.toBytes))

/-- The identifier written by 32 digits. -/
def ofDigits? (digits : Bytes) : Option TokenId :=
  match Hex.decodePairs 0 digits with
  | .ok bytes => (Block.ofBytes? 16 bytes).map TokenId.mk
  | .error _ => none

/-- The identifier written by 36 bytes in hyphenated groups. -/
def ofGroups? (text : Bytes) : Option TokenId :=
  let hyphen : Bytes := [45]
  let at8 := (text.drop 8).take 1
  let at13 := (text.drop 13).take 1
  let at18 := (text.drop 18).take 1
  let at23 := (text.drop 23).take 1
  if text.length = 36 ∧ at8 = hyphen ∧ at13 = hyphen ∧ at18 = hyphen ∧ at23 = hyphen then
    ofDigits? (text.take 8 ++ (text.drop 9).take 4 ++ (text.drop 14).take 4 ++
      (text.drop 19).take 4 ++ text.drop 24)
  else none

/-- The bytes of `urn:uuid:`, which announce the identifier as a resource name. -/
def resourcePrefix : Bytes := [117, 114, 110, 58, 117, 117, 105, 100, 58]

/-- The identifier that a text stands for. -/
def parse? (s : String) : Option TokenId :=
  let text := Utf8.encode s
  if text.length = 32 then ofDigits? text
  else if text.length = 36 then ofGroups? text
  else if text.length = 38 ∧ text.head? = some 123 ∧ text.getLast? = some 125 then
    ofGroups? ((text.drop 1).take 36)
  else if text.length = 45 ∧ (text.take 9).map Text.lowerByte = resourcePrefix then
    ofGroups? (text.drop 9)
  else none

/-! ## Reading what was written -/

theorem ofGroups?_split {a b c d e : Bytes} {x y z w : UInt8} (ha : a.length = 8)
    (hb : b.length = 4) (hc : c.length = 4) (hd : d.length = 4) (he : e.length = 12) :
    ofGroups? (a ++ x :: b ++ y :: c ++ z :: d ++ w :: e) =
      if x = 45 ∧ y = 45 ∧ z = 45 ∧ w = 45 then ofDigits? (a ++ b ++ c ++ d ++ e) else none := by
  have past {l : Bytes} {n : Nat} (h : l.length ≤ n) : l.drop n = [] := List.drop_of_length_le h
  simp (disch := omega) [ofGroups?, List.take_append, List.drop_append, past, ha, hb, hc, hd, he]

theorem grouped_ascii {digits : List Char} (h : ∀ c ∈ digits, c.val ≤ 127) :
    ∀ c ∈ grouped digits, c.val ≤ 127 := by
  have hhyphen : '-'.val ≤ 127 := by decide
  intro c hc
  simp only [grouped, List.mem_append, List.mem_cons] at hc
  rcases hc with (((hc | rfl | hc) | rfl | hc) | rfl | hc) | rfl | hc
  all_goals first
    | exact hhyphen
    | exact h c (List.mem_of_mem_drop hc)
    | exact h c (List.mem_of_mem_take hc)
    | exact h c (List.mem_of_mem_drop (List.mem_of_mem_take hc))

theorem ofDigits?_encodeChars (id : TokenId) :
    ofDigits? ((Hex.encodeChars id.toBytes).map Utf8.asciiByte) = some id := by
  rw [ofDigits?, Hex.decodePairs_encodeChars]
  exact congrArg (Option.map TokenId.mk) (Block.ofBytes?_toBytes id.block)

/-- The digits come in five groups, with hyphens between them. -/
theorem exists_groups {digits : List Char} (h : digits.length = 32) : ∃ a b c d e : List Char,
    digits = a ++ b ++ c ++ d ++ e ∧
      grouped digits = a ++ '-' :: b ++ '-' :: c ++ '-' :: d ++ '-' :: e ∧
      a.length = 8 ∧ b.length = 4 ∧ c.length = 4 ∧ d.length = 4 ∧ e.length = 12 := by
  refine ⟨digits.take 8, (digits.drop 8).take 4, (digits.drop 12).take 4, (digits.drop 16).take 4,
    digits.drop 20, ?_, rfl, ?_⟩
  · rw [← List.take_add, ← List.take_add, ← List.take_add, List.take_append_drop]
  · simp [h]

theorem ofGroups?_grouped {digits : List Char} (h : digits.length = 32) :
    ofGroups? ((grouped digits).map Utf8.asciiByte) = ofDigits? (digits.map Utf8.asciiByte) := by
  have hhyphen : Utf8.asciiByte '-' = 45 := rfl
  obtain ⟨a, b, c, d, e, hdigits, hgroups, ha, hb, hc, hd, he⟩ := exists_groups h
  rw [hgroups, hdigits]
  simp only [List.map_append, List.map_cons, hhyphen]
  rw [ofGroups?_split (by simp [ha]) (by simp [hb]) (by simp [hc]) (by simp [hd]) (by simp [he]),
    if_pos ⟨rfl, rfl, rfl, rfl⟩]

theorem length_encodeChars (id : TokenId) : (Hex.encodeChars id.toBytes).length = 32 := by
  rw [Hex.length_encodeChars, length_toBytes]

/-- An identifier is read back from its text. -/
theorem parse?_toText (id : TokenId) : parse? id.toText = some id := by
  have hbytes : Utf8.encode id.toText =
      (grouped (Hex.encodeChars id.toBytes)).map Utf8.asciiByte :=
    Utf8.encode_ofList_ascii (grouped_ascii fun _ => Hex.encodeChars_ascii)
  have h36 : (Utf8.encode id.toText).length = 36 := by
    rw [hbytes]
    simp [grouped, id.length_encodeChars]
  have hgroups : ofGroups? (Utf8.encode id.toText) = some id := by
    rw [hbytes, ofGroups?_grouped id.length_encodeChars, ofDigits?_encodeChars]
  simp only [parse?, h36, hgroups]
  rfl

end TokenId

end QubitWarden
