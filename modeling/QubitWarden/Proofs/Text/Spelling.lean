import QubitWarden.Text.Hex
import QubitWarden.Text.Letters
import QubitWarden.Text.Numeral

/-!
# Spellings

Which texts a reader takes for a value, apart from how it reads them: every number and every byte
string has one canonical text, and the other texts that stand for it differ from that one in a plus
sign, in zeros or in the case of letters.

* `byte_forall`, `ascii_forall`: tables of bytes and of characters.
* `Numeral`: the texts of a number (`natural?_eq_some_iff`, `word32?_eq_some_iff`,
  `word64?_eq_some_iff`).
* `encode_lower`: the case of letters can be put aside byte by byte.
* `Hex.decode_eq_ok_iff`: the texts of a byte string.
-/

namespace QubitWarden.Text

/-! ## Tables -/

/-- What holds of all bytes, checked value by value. -/
@[elab_as_elim]
theorem byte_forall {P : UInt8 → Prop} (h : ∀ n, n < 256 → P (UInt8.ofNat n)) (b : UInt8) : P b := by
  have hb := h b.toNat b.toNat_lt
  rwa [UInt8.ofNat_toNat] at hb

/-- What holds of all characters of ASCII, checked value by value. -/
@[elab_as_elim]
theorem ascii_forall {P : Char → Prop} (h : ∀ n, n < 128 → P (Char.ofNat n)) (c : Char)
    (hc : c.toNat < 128) : P c := by
  have hchar := h c.toNat hc
  rwa [Char.ofNat_toNat] at hchar

/-! ## Numerals -/

/-- The text is the decimal digits of the number, possibly after zeros and after a plus sign. -/
def Numeral (s : String) (n : Nat) : Prop :=
  ∃ zeros, s.toList = List.replicate zeros '0' ++ (decimal n).toList ∨
    s.toList = '+' :: (List.replicate zeros '0' ++ (decimal n).toList)

theorem numeral_decimal (n : Nat) : Numeral (decimal n) n := ⟨0, .inl rfl⟩

theorem digitChar_of_digit? {c : Char} {d : Nat} (h : digit? c = some d) :
    d < 10 ∧ c = Nat.digitChar d := by
  unfold digit? at h
  split at h
  next hrange =>
    have hlow : 48 ≤ c.toNat := UInt32.le_iff_toNat_le.1 hrange.1
    have hhigh : c.toNat ≤ 57 := UInt32.le_iff_toNat_le.1 hrange.2
    obtain rfl : c.toNat - 48 = d := Option.some.inj h
    refine ⟨by omega, Char.toNat_inj.1 ?_⟩
    rw [Nat.toNat_digitChar_of_lt_ten (by omega)]
    omega
  next => cases h

/-- After a leading digit that is not zero, the digits are those of the number. -/
theorem toDigits_of_digitsFrom? {acc n : Nat} {cs : List Char} (hacc : 0 < acc)
    (h : digitsFrom? acc cs = some n) : Nat.toDigits 10 n = Nat.toDigits 10 acc ++ cs := by
  induction cs generalizing acc with
  | nil => rw [Option.some.inj h, List.append_nil]
  | cons c rest ih =>
    obtain ⟨d, hd, hrest⟩ := Option.bind_eq_some_iff.1 h
    obtain ⟨hlt, rfl⟩ := digitChar_of_digit? hd
    rw [ih (by omega) hrest, ← Nat.toDigits_append_toDigits (by decide) hacc hlt,
      Nat.toDigits_of_lt_base hlt, List.append_assoc]
    rfl

/-- Digits that are read as a number are zeros and then its own digits. -/
theorem zeros_of_digitsFrom? {c : Char} {cs : List Char} {n : Nat}
    (h : digitsFrom? 0 (c :: cs) = some n) :
    ∃ zeros, c :: cs = List.replicate zeros '0' ++ Nat.toDigits 10 n := by
  induction cs generalizing c with
  | nil =>
    obtain ⟨d, hd, hrest⟩ := Option.bind_eq_some_iff.1 h
    obtain ⟨hlt, rfl⟩ := digitChar_of_digit? hd
    obtain rfl : d = n := by simpa [digitsFrom?] using hrest
    exact ⟨0, (Nat.toDigits_of_lt_base hlt).symm⟩
  | cons second rest ih =>
    obtain ⟨d, hd, hrest⟩ := Option.bind_eq_some_iff.1 h
    obtain ⟨hlt, rfl⟩ := digitChar_of_digit? hd
    rw [Nat.mul_zero, Nat.zero_add] at hrest
    by_cases hzero : d = 0
    · subst hzero
      obtain ⟨zeros, hzeros⟩ := ih hrest
      exact ⟨zeros + 1, by rw [hzeros]; rfl⟩
    · refine ⟨0, ?_⟩
      rw [toDigits_of_digitsFrom? (Nat.pos_of_ne_zero hzero) hrest, Nat.toDigits_of_lt_base hlt]
      rfl

theorem digitsFrom?_zeros (zeros : Nat) (cs : List Char) :
    digitsFrom? 0 (List.replicate zeros '0' ++ cs) = digitsFrom? 0 cs := by
  induction zeros with
  | zero => rfl
  | succ zeros ih => exact ih

theorem ofDigits?_eq {cs : List Char} (hne : cs ≠ []) : ofDigits? cs = digitsFrom? 0 cs := by
  cases cs with
  | nil => exact absurd rfl hne
  | cons c rest => rfl

theorem ofDigits?_eq_some_iff {cs : List Char} {n : Nat} :
    ofDigits? cs = some n ↔ ∃ zeros, cs = List.replicate zeros '0' ++ (decimal n).toList := by
  have hdecimal : (decimal n).toList ≠ [] := by
    rw [toList_decimal]
    exact Nat.toDigits_ne_nil
  constructor
  · intro h
    rw [toList_decimal]
    cases cs with
    | nil => cases h
    | cons c rest => exact zeros_of_digitsFrom? h
  · rintro ⟨zeros, rfl⟩
    rw [ofDigits?_eq (List.append_ne_nil_of_right_ne_nil _ hdecimal), digitsFrom?_zeros,
      ← ofDigits?_eq hdecimal, ofDigits?_decimal]

/-- **Exactly the numerals of a number are read as it.** -/
theorem natural?_eq_some_iff {s : String} {n : Nat} : natural? s = some n ↔ Numeral s n := by
  have hplus (zeros : Nat) (rest : List Char) :
      '+' :: rest ≠ List.replicate zeros '0' ++ (decimal n).toList := by
    intro h
    have hmem : '+' ∈ List.replicate zeros '0' ++ (decimal n).toList := h ▸ List.mem_cons_self
    rcases List.mem_append.1 hmem with hmem | hmem
    · exact absurd (List.eq_of_mem_replicate hmem) (by decide)
    · exact absurd (isDigit_of_mem_decimal hmem) (by decide)
  unfold natural? Numeral
  split
  next rest hs =>
    rw [ofDigits?_eq_some_iff, hs]
    refine exists_congr fun zeros => ?_
    constructor
    · exact fun h => .inr (h ▸ rfl)
    · rintro (h | h)
      · exact absurd h (hplus zeros rest)
      · exact (List.cons.inj h).2
  next hs =>
    rw [ofDigits?_eq_some_iff]
    refine exists_congr fun zeros => ⟨.inl, ?_⟩
    rintro (h | h)
    · exact h
    · exact absurd h (hs _)

/-- A word is read from the numerals of its value, whatever its width. -/
theorem bind_natural?_eq_some_iff {α : Type} {size : Nat} {ofNat : Nat → α} {toNat : α → Nat}
    (hlt : ∀ a, toNat a < size) (htoNat : ∀ {n}, n < size → toNat (ofNat n) = n)
    (hofNat : ∀ a, ofNat (toNat a) = a) {s : String} {a : α} :
    ((natural? s).bind fun n => if n < size then some (ofNat n) else none) = some a ↔
      Numeral s (toNat a) := by
  rw [← natural?_eq_some_iff, Option.bind_eq_some_iff]
  constructor
  · rintro ⟨m, hm, h⟩
    split at h
    next hm' => rw [hm, ← Option.some.inj h, htoNat hm']
    next => cases h
  · intro h
    exact ⟨toNat a, h, by rw [if_pos (hlt a), hofNat]⟩

theorem word32?_eq_some_iff {s : String} {n : UInt32} : word32? s = some n ↔ Numeral s n.toNat :=
  bind_natural?_eq_some_iff UInt32.toNat_lt UInt32.toNat_ofNat_of_lt' fun _ => UInt32.ofNat_toNat

theorem word64?_eq_some_iff {s : String} {n : UInt64} : word64? s = some n ↔ Numeral s n.toNat :=
  bind_natural?_eq_some_iff UInt64.toNat_lt UInt64.toNat_ofNat_of_lt' fun _ => UInt64.ofNat_toNat

theorem boolean?_eq_some_iff {s : String} {b : Bool} :
    boolean? s = some b ↔ s = if b then "true" else "false" := by
  unfold boolean?
  split
  next h => cases b <;> simp [h]
  next h =>
    split
    next h' => cases b <;> simp [h']
    next h' => cases b <;> simp [h, h']

/-! ## Letters of either case -/

theorem lowerByte_of_le {b : UInt8} (h : 128 ≤ b.toNat) : lowerByte b = b := by
  refine if_neg fun hrange => ?_
  have hhigh : b.toNat ≤ 90 := UInt8.le_iff_toNat_le.1 hrange.2
  omega

/-- Only the byte itself has a lower-case form that is no letter. -/
theorem lowerByte_eq_iff {b v : UInt8} (hv : v.toNat < 65 ∨ 122 < v.toNat) :
    lowerByte b = v ↔ b = v := by
  unfold lowerByte
  split
  next hrange =>
    have hlow : 65 ≤ b.toNat := UInt8.le_iff_toNat_le.1 hrange.1
    have hhigh : b.toNat ≤ 90 := UInt8.le_iff_toNat_le.1 hrange.2
    have hsum : (b + 32).toNat = b.toNat + 32 := by
      rw [UInt8.toNat_add, show (32 : UInt8).toNat = 32 from rfl]
      omega
    constructor
    · rintro rfl
      omega
    · rintro rfl
      omega
  next => exact Iff.rfl

/-- A character beyond ASCII is no capital of `A` to `Z`. -/
theorem lowerLetter_of_not_ascii {c : Char} (hc : ¬ c.toNat < 128) : lowerLetter c = c := by
  refine if_neg fun hrange => hc ?_
  have hhigh : c.toNat ≤ 90 := UInt32.le_iff_toNat_le.1 hrange.2
  omega

theorem utf8EncodeChar_lowerLetter_ascii : ∀ n, n < 128 →
    String.utf8EncodeChar (lowerLetter (Char.ofNat n)) =
      (String.utf8EncodeChar (Char.ofNat n)).map lowerByte := by
  decide +kernel

theorem le_of_mem_utf8EncodeChar {c : Char} (hc : 127 < c.val.toNat) {b : UInt8}
    (hb : b ∈ String.utf8EncodeChar c) : 128 ≤ b.toNat := by
  simp only [String.utf8EncodeChar, if_neg (Nat.not_le.2 hc)] at hb
  split at hb
  · simp only [List.mem_cons, List.not_mem_nil, or_false] at hb
    rcases hb with rfl | rfl <;> rw [UInt8.toNat_ofNat'] <;> omega
  split at hb
  · simp only [List.mem_cons, List.not_mem_nil, or_false] at hb
    rcases hb with rfl | rfl | rfl <;> rw [UInt8.toNat_ofNat'] <;> omega
  · simp only [List.mem_cons, List.not_mem_nil, or_false] at hb
    rcases hb with rfl | rfl | rfl | rfl <;> rw [UInt8.toNat_ofNat'] <;> omega

theorem utf8EncodeChar_lowerLetter (c : Char) :
    String.utf8EncodeChar (lowerLetter c) = (String.utf8EncodeChar c).map lowerByte := by
  by_cases hc : c.toNat < 128
  · exact ascii_forall utf8EncodeChar_lowerLetter_ascii c hc
  · rw [lowerLetter_of_not_ascii hc, List.map_congr_left fun b hb =>
      lowerByte_of_le (le_of_mem_utf8EncodeChar (Nat.not_lt.1 hc) hb), List.map_id']

/-- **Putting a text in lower case changes it byte by byte.** -/
theorem encode_lower (s : String) : Utf8.encode (lower s) = (Utf8.encode s).map lowerByte := by
  rw [Utf8.encode_eq_flatMap, Utf8.encode_eq_flatMap, lower, String.toList_ofList,
    List.flatMap_map, List.map_flatMap]
  simp only [utf8EncodeChar_lowerLetter]

end QubitWarden.Text

namespace QubitWarden.Hex

open Text

theorem value?_lowerByte : ∀ n, n < 256 →
    value? (lowerByte (UInt8.ofNat n)) = value? (UInt8.ofNat n) := by
  decide +kernel

theorem digit_of_value? : ∀ n, n < 256 → ∀ v ∈ value? (UInt8.ofNat n),
    v.toNat < 16 ∧ Utf8.asciiByte (digit v.toNat) = lowerByte (UInt8.ofNat n) := by
  decide +kernel

theorem value?_lower (b : UInt8) : value? (lowerByte b) = value? b :=
  byte_forall value?_lowerByte b

theorem value?_eq_some {b v : UInt8} (h : value? b = some v) :
    v.toNat < 16 ∧ Utf8.asciiByte (digit v.toNat) = lowerByte b := by
  have hdigit : ∀ v ∈ value? b, v.toNat < 16 ∧ Utf8.asciiByte (digit v.toNat) = lowerByte b :=
    byte_forall digit_of_value? b
  exact hdigit v h

/-- Digits in lower case are those that are written. -/
theorem map_lowerByte_of_decodePairs {index : Nat} {digits bytes : Bytes}
    (h : decodePairs index digits = .ok bytes) :
    digits.map lowerByte = (encodeChars bytes).map Utf8.asciiByte := by
  fun_induction decodePairs index digits generalizing bytes with
  | case1 => cases h; rfl
  | case2 => cases h
  | case3 => cases h
  | case4 => cases h
  | case5 index high low rest a b hhigh hlow ih =>
    cases hrest : decodePairs (index + 2) rest with
    | error e => rw [hrest] at h; cases h
    | ok others =>
      rw [hrest] at h
      obtain rfl := Except.ok.inj h
      obtain ⟨ha, hadigit⟩ := value?_eq_some hhigh
      obtain ⟨hb, hbdigit⟩ := value?_eq_some hlow
      have hvalue : (16 * a + b).toNat = 16 * a.toNat + b.toNat := by
        rw [UInt8.toNat_add, UInt8.toNat_mul, show (16 : UInt8).toNat = 16 from rfl]
        omega
      have hquot : (16 * a + b).toNat / 16 = a.toNat := by omega
      have hrem : (16 * a + b).toNat % 16 = b.toNat := by omega
      have hothers := ih hrest
      rw [encodeChars] at hothers ⊢
      rw [List.flatMap_cons, hquot, hrem]
      simp only [List.map_cons, List.cons_append, List.nil_append, hadigit, hbdigit, hothers]

theorem decodePairs_ok_of_lower {index : Nat} {digits bytes : Bytes}
    (h : decodePairs index (digits.map lowerByte) = .ok bytes) :
    decodePairs index digits = .ok bytes := by
  fun_induction decodePairs index digits generalizing bytes with
  | case1 => exact h
  | case2 => cases h
  | case3 index high low rest hhigh =>
    simp only [List.map_cons, decodePairs, value?_lower, hhigh] at h
    cases h
  | case4 index high low rest hlow hhigh =>
    cases hvalue : value? high with
    | none => exact (hhigh hvalue).elim
    | some a =>
      simp only [List.map_cons, decodePairs, value?_lower, hvalue, hlow] at h
      cases h
  | case5 index high low rest a b hhigh hlow ih =>
    simp only [List.map_cons, decodePairs, value?_lower, hhigh, hlow] at h
    cases hrest : decodePairs (index + 2) (rest.map lowerByte) with
    | error e => rw [hrest] at h; cases h
    | ok others => rwa [ih hrest, ← hrest]

theorem decodePairs_eq_ok_iff {index : Nat} {digits bytes : Bytes} :
    decodePairs index digits = .ok bytes ↔
      digits.map lowerByte = (encodeChars bytes).map Utf8.asciiByte :=
  ⟨map_lowerByte_of_decodePairs,
    fun h => decodePairs_ok_of_lower (h ▸ decodePairs_encodeChars index bytes)⟩

theorem encode_encode (bytes : Bytes) :
    Utf8.encode (encode bytes) = (encodeChars bytes).map Utf8.asciiByte :=
  Utf8.encode_ofList_ascii fun _ => encodeChars_ascii

theorem lower_encode (bytes : Bytes) : lower (encode bytes) = encode bytes := by
  apply Utf8.encode_inj
  rw [encode_lower, encode_encode]
  exact map_lowerByte_of_decodePairs (decodePairs_encodeChars 0 bytes)

/-- **Exactly the digits of a byte string are read as it, in either case.** -/
theorem decode_eq_ok_iff {s : String} {bytes : Bytes} :
    decode s = .ok bytes ↔ lower s = encode bytes := by
  have hlower : lower s = encode bytes ↔
      (Utf8.encode s).map lowerByte = (encodeChars bytes).map Utf8.asciiByte := by
    rw [← encode_lower, ← encode_encode]
    exact ⟨congrArg Utf8.encode, Utf8.encode_inj⟩
  rw [hlower, decode]
  split
  next hodd =>
    constructor
    · intro h
      cases h
    · intro h
      have hlen := congrArg List.length h
      rw [List.length_map, List.length_map, length_encodeChars] at hlen
      omega
  next => exact decodePairs_eq_ok_iff

end QubitWarden.Hex
