import QubitWarden.Proofs.Text.Spelling
import QubitWarden.Token.Id

/-!
# Spellings of an identifier

An identifier is written in four ways: its digits alone, in hyphenated groups, the groups in braces,
and the groups after `urn:uuid:`. The four have different lengths, and the letters may be of either
case.

* `ofDigits?_eq_some_iff`, `ofGroups?_eq_some_iff`, `braced_iff`, `resource_iff`: what each way
  takes.
* `TokenId.parse?_eq_some_iff`: exactly the spellings of an identifier are read as it.
-/

namespace QubitWarden

theorem append_inj_iff {α : Type} {a b c d : List α} (hlen : a.length = c.length) :
    a ++ b = c ++ d ↔ a = c ∧ b = d :=
  ⟨fun h => List.append_inj h hlen, fun ⟨hac, hbd⟩ => hac ▸ hbd ▸ rfl⟩

/-- A list is what comes before a place, what is there and the rest. -/
theorem exists_split {α : Type} {l : List α} {n : Nat} (h : n < l.length) :
    ∃ before x rest, l = before ++ x :: rest ∧ before.length = n ∧
      rest.length = l.length - n - 1 := by
  refine ⟨l.take n, l[n], l.drop (n + 1), ?_, ?_, ?_⟩
  · rw [List.getElem_cons_drop, List.take_append_drop]
  · rw [List.length_take]
    omega
  · rw [List.length_drop]
    omega

namespace TokenId

/-- The texts of the identifier in lower case. -/
def spellings (id : TokenId) : List String :=
  [Hex.encode id.toBytes, id.toText, "\x7b" ++ id.toText ++ "\x7d", "urn:uuid:" ++ id.toText]

/-- The bytes of the digits. -/
def digitBytes (id : TokenId) : Bytes := (Hex.encodeChars id.toBytes).map Utf8.asciiByte

/-- The bytes of the hyphenated text. -/
def groupBytes (id : TokenId) : Bytes :=
  (grouped (Hex.encodeChars id.toBytes)).map Utf8.asciiByte

theorem encode_toText (id : TokenId) : Utf8.encode id.toText = id.groupBytes :=
  Utf8.encode_ofList_ascii (grouped_ascii fun _ => Hex.encodeChars_ascii)

theorem length_digitBytes (id : TokenId) : id.digitBytes.length = 32 := by
  rw [digitBytes, List.length_map, length_encodeChars]

theorem length_groupBytes (id : TokenId) : id.groupBytes.length = 36 := by
  obtain ⟨a, b, c, d, e, -, hgroups, ha, hb, hc, hd, he⟩ := exists_groups id.length_encodeChars
  simp [groupBytes, hgroups, ha, hb, hc, hd, he]

theorem ofDigits?_eq_some_iff {digits : Bytes} {id : TokenId} :
    ofDigits? digits = some id ↔ digits.map Text.lowerByte = id.digitBytes := by
  rw [digitBytes, ← Hex.decodePairs_eq_ok_iff, ofDigits?]
  constructor
  · intro h
    split at h
    next bytes hbytes =>
      obtain ⟨block, hblock, rfl⟩ := Option.map_eq_some_iff.1 h
      rw [hbytes]
      exact congrArg Except.ok (Block.toBytes_of_ofBytes? hblock).symm
    next => cases h
  · intro h
    rw [h]
    exact congrArg (Option.map TokenId.mk) (Block.ofBytes?_toBytes id.block)

/-- A byte string of the length of the hyphenated text is five groups with a byte between them. -/
theorem exists_groups_of_length {text : Bytes} (h : text.length = 36) :
    ∃ (a b c d e : Bytes) (x y z w : UInt8),
      text = a ++ x :: b ++ y :: c ++ z :: d ++ w :: e ∧
        a.length = 8 ∧ b.length = 4 ∧ c.length = 4 ∧ d.length = 4 ∧ e.length = 12 := by
  obtain ⟨a, x, rest, rfl, ha, hrest⟩ := exists_split (show 8 < text.length by omega)
  obtain ⟨b, y, rest, rfl, hb, hrest⟩ := exists_split (show 4 < rest.length by omega)
  obtain ⟨c, z, rest, rfl, hc, hrest⟩ := exists_split (show 4 < rest.length by omega)
  obtain ⟨d, w, e, rfl, hd, he⟩ := exists_split (show 4 < rest.length by omega)
  exact ⟨a, b, c, d, e, x, y, z, w, by simp, ha, hb, hc, hd, by omega⟩

theorem ofGroups?_eq_some_iff {text : Bytes} {id : TokenId} :
    ofGroups? text = some id ↔ text.map Text.lowerByte = id.groupBytes := by
  by_cases hlen : text.length = 36
  · obtain ⟨a, b, c, d, e, x, y, z, w, rfl, ha, hb, hc, hd, he⟩ := exists_groups_of_length hlen
    obtain ⟨a', b', c', d', e', hdigits, hgroups, ha', hb', hc', hd', he'⟩ :=
      exists_groups id.length_encodeChars
    have hhyphen : Utf8.asciiByte '-' = 45 := rfl
    have hlower (v : UInt8) : Text.lowerByte v = 45 ↔ v = 45 :=
      Text.lowerByte_eq_iff (.inl (by decide))
    rw [ofGroups?_split ha hb hc hd he, Option.ite_none_right_eq_some, ofDigits?_eq_some_iff,
      digitBytes, hdigits, groupBytes, hgroups]
    simp only [List.map_append, List.map_cons, hhyphen]
    simp (disch := simp [*]) only [append_inj_iff, List.cons.injEq, hlower]
    constructor
    · rintro ⟨⟨hx, hy, hz, hw⟩, ⟨⟨⟨ha, hb⟩, hc⟩, hd⟩, he⟩
      exact ⟨⟨⟨⟨ha, hx, hb⟩, hy, hc⟩, hz, hd⟩, hw, he⟩
    · rintro ⟨⟨⟨⟨ha, hx, hb⟩, hy, hc⟩, hz, hd⟩, hw, he⟩
      exact ⟨⟨hx, hy, hz, hw⟩, ⟨⟨⟨ha, hb⟩, hc⟩, hd⟩, he⟩
  · constructor
    · intro h
      rw [ofGroups?, if_neg fun hshape => hlen hshape.1] at h
      cases h
    · intro h
      have hmap := congrArg List.length h
      rw [List.length_map, length_groupBytes] at hmap
      exact absurd hmap hlen

/-- Which bytes the identifier may be written in, letter case aside. -/
theorem mem_spellings_iff {s : String} {id : TokenId} :
    s ∈ id.spellings ↔
      Utf8.encode s = id.digitBytes ∨ Utf8.encode s = id.groupBytes ∨
        Utf8.encode s = 123 :: id.groupBytes ++ [125] ∨
        Utf8.encode s = resourcePrefix ++ id.groupBytes := by
  have hbraced : Utf8.encode ("\x7b" ++ id.toText ++ "\x7d") = 123 :: id.groupBytes ++ [125] := by
    rw [Utf8.encode_append, Utf8.encode_append, encode_toText]
    rfl
  have hresource : Utf8.encode ("urn:uuid:" ++ id.toText) = resourcePrefix ++ id.groupBytes := by
    rw [Utf8.encode_append, encode_toText]
    rfl
  have hinj (t : String) : s = t ↔ Utf8.encode s = Utf8.encode t :=
    ⟨congrArg Utf8.encode, Utf8.encode_inj⟩
  simp only [spellings, List.mem_cons, List.not_mem_nil, or_false, hinj, hbraced, hresource,
    encode_toText, Hex.encode_encode, digitBytes]

/-- The groups in braces. -/
theorem braced_iff {text : Bytes} {id : TokenId} :
    (text.length = 38 ∧ text.head? = some 123 ∧ text.getLast? = some 125) ∧
        ofGroups? ((text.drop 1).take 36) = some id ↔
      text.map Text.lowerByte = 123 :: id.groupBytes ++ [125] := by
  rw [ofGroups?_eq_some_iff]
  constructor
  · rintro ⟨⟨hlen, hhead, hlast⟩, hgroups⟩
    obtain ⟨before, rfl⟩ := List.getLast?_eq_some_iff.1 hlast
    obtain ⟨middle, hmiddle⟩ := List.head?_eq_some_iff.1 hhead
    cases before with
    | nil => simp at hlen
    | cons first groups =>
      obtain rfl : first = 123 := (List.cons.inj hmiddle).1
      have h36 : groups.length = 36 := by simpa using hlen
      rw [List.cons_append, List.drop_one, List.tail_cons, List.take_left' h36] at hgroups
      rw [List.map_append, List.map_cons, hgroups]
      rfl
  · intro h
    obtain ⟨before, after, rfl, hbefore, hafter⟩ := List.map_eq_append_iff.1 h
    obtain ⟨first, groups, rfl, hfirst, hgroups⟩ := List.map_eq_cons_iff.1 hbefore
    obtain ⟨last, rest, rfl, hlast, hrest⟩ := List.map_eq_cons_iff.1 hafter
    obtain rfl := List.map_eq_nil_iff.1 hrest
    obtain rfl := (Text.lowerByte_eq_iff (.inr (by decide))).1 hfirst
    obtain rfl := (Text.lowerByte_eq_iff (.inr (by decide))).1 hlast
    have h36 : groups.length = 36 := by
      rw [← length_groupBytes id, ← hgroups, List.length_map]
    refine ⟨⟨by simp [h36], rfl, List.getLast?_concat⟩, ?_⟩
    rw [List.cons_append, List.drop_one, List.tail_cons, List.take_left' h36, hgroups]

/-- The groups after the announcement of a resource name. -/
theorem resource_iff {text : Bytes} {id : TokenId} :
    (text.length = 45 ∧ (text.take 9).map Text.lowerByte = resourcePrefix) ∧
        ofGroups? (text.drop 9) = some id ↔
      text.map Text.lowerByte = resourcePrefix ++ id.groupBytes := by
  rw [ofGroups?_eq_some_iff]
  constructor
  · rintro ⟨⟨-, hprefix⟩, hgroups⟩
    rw [← hprefix, ← hgroups, ← List.map_append, List.take_append_drop]
  · intro h
    have hlen : text.length = 45 := by
      have hmap := congrArg List.length h
      rwa [List.length_map, List.length_append, length_groupBytes] at hmap
    refine ⟨⟨hlen, ?_⟩, ?_⟩
    · rw [List.map_take, h]
      exact List.take_left' rfl
    · rw [List.map_drop, h]
      exact List.drop_left' rfl

/-- **Exactly the spellings of an identifier are read as it, in either case.** -/
theorem parse?_eq_some_iff {s : String} {id : TokenId} :
    parse? s = some id ↔ Text.lower s ∈ id.spellings := by
  rw [mem_spellings_iff, Text.encode_lower, parse?]
  generalize Utf8.encode s = text
  rw [← ofDigits?_eq_some_iff, ← ofGroups?_eq_some_iff, ← braced_iff, ← resource_iff]
  -- The four ways to write the identifier have different lengths, so at most one applies.
  have hdigits (h : ofDigits? text = some id) : text.length = 32 := by
    rw [← List.length_map Text.lowerByte, ofDigits?_eq_some_iff.1 h, length_digitBytes]
  have hgroups (h : ofGroups? text = some id) : text.length = 36 := by
    rw [← List.length_map Text.lowerByte, ofGroups?_eq_some_iff.1 h, length_groupBytes]
  split
  next h32 => grind
  split
  next h36 => grind
  split
  next h38 => grind
  split
  next h45 => grind
  next => grind

end TokenId

end QubitWarden
