import QubitWarden.Proofs.Text.Spelling
import QubitWarden.Text.Blank

/-!
# Grammars

Which texts a reader accepts, letter by letter, where `Proofs.Text.Spelling` says which texts stand
for a given value; and where a text of hexadecimal digits goes wrong.

* `Padded`: a text with white space around it (`padded_trim`, `trim_of_padded`).
* `numeral_iff_digits`: a numeral is a run of digits, possibly after a plus sign.
* `Hex.digits_iff`: the texts of byte strings are those of an even number of digits.
* `Hex.stray?`: the first byte that is no digit, which is reported (`Hex.decodePairs_cases`).
-/

namespace QubitWarden.Text

/-! ## White space -/

/-- Every character of the text is blank. -/
def Blank (s : String) : Prop := ∀ c ∈ s.toList, isBlank c = true

/-- No character of the text is blank. -/
def Solid (s : String) : Prop := ∀ c ∈ s.toList, isBlank c = false

instance (s : String) : Decidable (Solid s) :=
  decidable_of_iff (s.toList.all (fun c => !isBlank c) = true) (by simp [Solid])

/-- The text is `core` with white space around it. -/
def Padded (text core : String) : Prop :=
  ∃ before after, Blank before ∧ Blank after ∧ text = before ++ core ++ after

theorem isBlank_of_mem_takeWhile {cs : List Char} {c : Char} (h : c ∈ cs.takeWhile isBlank) :
    isBlank c = true := List.all_eq_true.1 List.all_takeWhile c h

theorem takeWhile_append_trimChars (cs : List Char) :
    cs.takeWhile isBlank ++
      (trimChars cs ++ ((cs.dropWhile isBlank).reverse.takeWhile isBlank).reverse) = cs := by
  rw [trimChars, ← List.reverse_append, List.takeWhile_append_dropWhile, List.reverse_reverse,
    List.takeWhile_append_dropWhile]

/-- What is trimmed off is white space. -/
theorem padded_trim (s : String) : Padded s (trim s) := by
  refine ⟨String.ofList (s.toList.takeWhile isBlank),
    String.ofList ((s.toList.dropWhile isBlank).reverse.takeWhile isBlank).reverse, ?_, ?_, ?_⟩
  · intro c hc
    rw [String.toList_ofList] at hc
    exact isBlank_of_mem_takeWhile hc
  · intro c hc
    rw [String.toList_ofList, List.mem_reverse] at hc
    exact isBlank_of_mem_takeWhile hc
  · apply String.toList_injective
    simp only [trim, String.toList_append, String.toList_ofList, List.append_assoc,
      takeWhile_append_trimChars]

theorem dropWhile_of_solid {cs : List Char} (h : ∀ c ∈ cs, isBlank c = false) :
    cs.dropWhile isBlank = cs := by
  cases cs with
  | nil => rfl
  | cons c rest => exact List.dropWhile_cons_of_neg (by simp [h c List.mem_cons_self])

/-- Trimming takes all white space off a text that has none within. -/
theorem trim_of_padded {text core : String} (h : Padded text core) (hcore : Solid core) :
    trim text = core := by
  obtain ⟨before, after, hbefore, hafter, rfl⟩ := h
  apply String.toList_injective
  simp only [trim, trimChars, String.toList_append, String.toList_ofList, List.append_assoc]
  rw [List.dropWhile_append_of_pos hbefore]
  have hreverse : ∀ c ∈ after.toList.reverse, isBlank c = true := fun c hc =>
    hafter c (List.mem_reverse.1 hc)
  -- With nothing in the middle, the first pass already takes everything.
  cases hcs : core.toList with
  | nil =>
    rw [List.nil_append, ← List.append_nil after.toList, List.dropWhile_append_of_pos hafter]
    rfl
  | cons c rest =>
    rw [Solid, hcs] at hcore
    have hfirst : ((c :: rest) ++ after.toList).dropWhile isBlank = (c :: rest) ++ after.toList :=
      List.dropWhile_cons_of_neg (by simp [hcore c List.mem_cons_self])
    rw [hfirst, List.reverse_append, List.dropWhile_append_of_pos hreverse,
      dropWhile_of_solid fun d hd => hcore d (List.mem_reverse.1 hd), List.reverse_reverse]

theorem isBlank_lowerLetter_ascii : ∀ n, n < 128 →
    isBlank (lowerLetter (Char.ofNat n)) = isBlank (Char.ofNat n) := by
  decide +kernel

theorem isBlank_lowerLetter (c : Char) : isBlank (lowerLetter c) = isBlank c := by
  by_cases hc : c.toNat < 128
  · exact ascii_forall isBlank_lowerLetter_ascii c hc
  · rw [lowerLetter_of_not_ascii hc]

/-- The case of letters does not matter for white space. -/
theorem solid_of_lower {s : String} (h : Solid (lower s)) : Solid s := by
  intro c hc
  rw [← isBlank_lowerLetter]
  refine h _ ?_
  rw [lower, String.toList_ofList]
  exact List.mem_map_of_mem hc

/-! ## Numerals -/

theorem isDigit_of_digit? {c : Char} {d : Nat} (h : digit? c = some d) : c.isDigit = true := by
  unfold digit? at h
  split at h
  next hrange =>
    simp only [Char.isDigit, Bool.and_eq_true, decide_eq_true_eq]
    exact hrange
  next => cases h

theorem digitsFrom?_eq_some_iff {acc n : Nat} {cs : List Char} :
    digitsFrom? acc cs = some n ↔
      (∀ c ∈ cs, c.isDigit = true) ∧ Nat.ofDigitChars 10 cs acc = n := by
  constructor
  · intro h
    have hdigits : ∀ c ∈ cs, c.isDigit = true := by
      induction cs generalizing acc with
      | nil => exact List.forall_mem_nil _
      | cons c rest ih =>
        obtain ⟨d, hd, hrest⟩ := Option.bind_eq_some_iff.1 h
        exact List.forall_mem_cons.2 ⟨isDigit_of_digit? hd, ih hrest⟩
    rw [digitsFrom?_eq acc hdigits] at h
    exact ⟨hdigits, Option.some.inj h⟩
  · rintro ⟨hdigits, rfl⟩
    exact digitsFrom?_eq acc hdigits

theorem ofDigits?_eq_some_iff_digits {n : Nat} {cs : List Char} :
    ofDigits? cs = some n ↔
      cs ≠ [] ∧ (∀ c ∈ cs, c.isDigit = true) ∧ Nat.ofDigitChars 10 cs 0 = n := by
  by_cases hne : cs = []
  · subst hne
    exact ⟨fun h => (by cases h), fun h => absurd rfl h.1⟩
  · rw [ofDigits?_eq hne, digitsFrom?_eq_some_iff]
    exact ⟨fun h => ⟨hne, h⟩, fun h => h.2⟩

/-- The text is an optional plus sign and decimal digits, at least one, that amount to `n`. -/
def SignedDigits (s : String) (n : Nat) : Prop :=
  ∃ digits, digits ≠ [] ∧ (∀ c ∈ digits, c.isDigit = true) ∧
    (s.toList = digits ∨ s.toList = '+' :: digits) ∧ Nat.ofDigitChars 10 digits 0 = n

/-- A numeral is any run of digits with its value, zeros in front included. -/
theorem numeral_iff_digits {s : String} {n : Nat} : Numeral s n ↔ SignedDigits s n := by
  rw [← natural?_eq_some_iff, natural?, SignedDigits]
  split
  next rest hs =>
    rw [ofDigits?_eq_some_iff_digits, hs]
    constructor
    · rintro ⟨hne, hdigits, hvalue⟩
      exact ⟨rest, hne, hdigits, .inr rfl, hvalue⟩
    · rintro ⟨digits, hne, hdigits, hdigits' | hrest, hvalue⟩
      · have hplus := hdigits '+' (hdigits' ▸ List.mem_cons_self)
        exact absurd hplus (by decide)
      · obtain rfl := (List.cons.inj hrest).2
        exact ⟨hne, hdigits, hvalue⟩
  next hs =>
    rw [ofDigits?_eq_some_iff_digits]
    constructor
    · rintro ⟨hne, hdigits, hvalue⟩
      exact ⟨_, hne, hdigits, .inl rfl, hvalue⟩
    · rintro ⟨digits, hne, hdigits, rfl | hrest, hvalue⟩
      · exact ⟨hne, hdigits, hvalue⟩
      · exact absurd hrest (hs digits)

/-- The text is a numeral of a number below the bound. -/
def NumeralBelow (bound : Nat) (s : String) : Prop := ∃ n, n < bound ∧ SignedDigits s n

theorem numeralBelow_iff {bound : Nat} {s : String} :
    NumeralBelow bound s ↔ ∃ n, n < bound ∧ Numeral s n :=
  exists_congr fun _ => and_congr_right fun _ => numeral_iff_digits.symm

instance (bound : Nat) (s : String) : Decidable (NumeralBelow bound s) :=
  decidable_of_iff ((natural? s).any (· < bound) = true) (by
    simp only [numeralBelow_iff, ← natural?_eq_some_iff, Option.any_eq_true, decide_eq_true_eq,
      and_comm])

theorem isBlank_of_isDigit_ascii : ∀ n, n < 128 →
    (Char.ofNat n).isDigit = true → isBlank (Char.ofNat n) = false := by
  decide +kernel

theorem isBlank_of_isDigit {c : Char} (h : c.isDigit = true) : isBlank c = false := by
  have hrange := h
  simp only [Char.isDigit, Bool.and_eq_true, decide_eq_true_eq] at hrange
  have hhigh : c.toNat ≤ 57 := UInt32.le_iff_toNat_le.1 hrange.2
  exact ascii_forall isBlank_of_isDigit_ascii c (by omega) h

theorem solid_numeral {s : String} {n : Nat} (h : Numeral s n) : Solid s := by
  obtain ⟨digits, -, hdigits, hs | hs, -⟩ := numeral_iff_digits.1 h
  · intro c hc
    exact isBlank_of_isDigit (hdigits c (hs ▸ hc))
  · intro c hc
    rw [hs] at hc
    obtain rfl | hc := List.mem_cons.1 hc
    · decide
    · exact isBlank_of_isDigit (hdigits c hc)

end QubitWarden.Text

namespace QubitWarden.Hex

open Text

/-! ## Hexadecimal digits -/

/-- A digit of either case. -/
def IsDigit (c : Char) : Prop :=
  ('0' ≤ c ∧ c ≤ '9') ∨ ('a' ≤ c ∧ c ≤ 'f') ∨ ('A' ≤ c ∧ c ≤ 'F')

instance (c : Char) : Decidable (IsDigit c) := inferInstanceAs (Decidable (_ ∨ _))

theorem isDigit_iff_ascii : ∀ n, n < 128 →
    (IsDigit (Char.ofNat n) ↔ ∃ m, m < 16 ∧ lowerLetter (Char.ofNat n) = digit m) := by
  decide +kernel

/-- The digits are those that are written, in either case. -/
theorem isDigit_iff {c : Char} : IsDigit c ↔ ∃ m, m < 16 ∧ lowerLetter c = digit m := by
  by_cases hc : c.toNat < 128
  · exact ascii_forall isDigit_iff_ascii c hc
  -- A character beyond ASCII is no digit and has no other case.
  · have hnot (d : Char) (hd : d.toNat < 128) : ¬ c ≤ d := fun hle => by
      have : c.toNat ≤ d.toNat := UInt32.le_iff_toNat_le.1 hle
      omega
    rw [lowerLetter_of_not_ascii hc]
    constructor
    · rintro (h | h | h)
      · exact absurd h.2 (hnot '9' (by decide))
      · exact absurd h.2 (hnot 'f' (by decide))
      · exact absurd h.2 (hnot 'F' (by decide))
    · rintro ⟨m, hm, rfl⟩
      have hascii : (digit m).toNat ≤ 127 := UInt32.le_iff_toNat_le.1 (digit_ascii m hm)
      omega

/-- Any even number of digits are those of a byte string. -/
theorem exists_encodeChars {n : Nat} {cs : List Char} (hlen : cs.length = 2 * n)
    (h : ∀ c ∈ cs, IsDigit c) :
    ∃ bytes : Bytes, bytes.length = n ∧ cs.map lowerLetter = encodeChars bytes := by
  induction n generalizing cs with
  | zero =>
    obtain rfl := List.length_eq_zero_iff.1 hlen
    exact ⟨[], rfl, rfl⟩
  | succ n ih =>
    obtain ⟨a, cs, rfl⟩ := List.exists_cons_of_length_pos (l := cs) (by omega)
    rw [List.length_cons] at hlen
    obtain ⟨b, cs, rfl⟩ := List.exists_cons_of_length_pos (l := cs) (by omega)
    rw [List.length_cons] at hlen
    simp only [List.forall_mem_cons] at h
    obtain ⟨high, hhigh, ha⟩ := isDigit_iff.1 h.1
    obtain ⟨low, hlow, hb⟩ := isDigit_iff.1 h.2.1
    obtain ⟨bytes, hbytes, hcs⟩ := ih (by omega) h.2.2
    have hbyte : (UInt8.ofNat (16 * high + low)).toNat = 16 * high + low := by
      rw [UInt8.toNat_ofNat']
      omega
    refine ⟨UInt8.ofNat (16 * high + low) :: bytes, by rw [List.length_cons, hbytes], ?_⟩
    rw [encodeChars] at hcs
    rw [encodeChars, List.flatMap_cons, hbyte, show (16 * high + low) / 16 = high by omega,
      show (16 * high + low) % 16 = low by omega, List.map_cons, List.map_cons, ha, hb, hcs]
    rfl

/-- **The texts of byte strings of one length** are those of twice as many digits, in either
case. -/
theorem digits_iff {s : String} {n : Nat} :
    (s.toList.length = 2 * n ∧ ∀ c ∈ s.toList, IsDigit c) ↔
      ∃ bytes : Bytes, bytes.length = n ∧ lower s = encode bytes := by
  have hlower (bytes : Bytes) :
      lower s = encode bytes ↔ s.toList.map lowerLetter = encodeChars bytes := by
    rw [lower, encode]
    exact ⟨fun h => String.ofList_injective h, congrArg _⟩
  simp only [hlower]
  constructor
  · rintro ⟨hlen, h⟩
    exact exists_encodeChars hlen h
  · rintro ⟨bytes, rfl, h⟩
    constructor
    · have hlen := congrArg List.length h
      rwa [List.length_map, length_encodeChars] at hlen
    · intro c hc
      have hmem : lowerLetter c ∈ encodeChars bytes := h ▸ List.mem_map_of_mem hc
      exact isDigit_iff.2 (exists_digit_of_mem_encodeChars hmem)

theorem solid_encode (bytes : Bytes) : Solid (encode bytes) := by
  have hblank : ∀ n, n < 16 → isBlank (digit n) = false := by decide
  intro c hc
  rw [encode, String.toList_ofList] at hc
  obtain ⟨n, hn, rfl⟩ := exists_digit_of_mem_encodeChars hc
  exact hblank n hn

/-! ## Bytes that are no digits -/

/-- The first byte that is no digit, with its position; `index` is the position of the first
byte. -/
def stray? (index : Nat) (digits : Bytes) : Option (UInt8 × Nat) :=
  (digits.zipIdx index).find? fun entry => (value? entry.1).isNone

theorem stray?_cons (index : Nat) (byte : UInt8) (rest : Bytes) :
    stray? index (byte :: rest) =
      if (value? byte).isNone then some (byte, index) else stray? (index + 1) rest := by
  rw [stray?, List.zipIdx_cons, List.find?_cons]
  cases (value? byte).isNone <;> rfl

/-- An even number of bytes are all digits, or the first that is none is reported. -/
theorem decodePairs_cases (index : Nat) {digits : Bytes} (heven : digits.length % 2 = 0) :
    (∃ byte position, stray? index digits = some (byte, position) ∧
        decodePairs index digits = .error (.invalidCharacter byte position)) ∨
      (stray? index digits = none ∧
        ∃ bytes, decodePairs index digits = .ok bytes ∧ digits.length = 2 * bytes.length) := by
  fun_induction decodePairs index digits with
  | case1 => exact .inr ⟨rfl, [], rfl, rfl⟩
  | case2 => cases heven
  | case3 index high low rest hhigh =>
    have hstray : stray? index (high :: low :: rest) = some (high, index) := by
      rw [stray?_cons, hhigh]
      rfl
    exact .inl ⟨high, index, hstray, rfl⟩
  | case4 index high low rest hlow hhigh =>
    cases hvalue : value? high with
    | none => exact (hhigh hvalue).elim
    | some a =>
      have hstray : stray? index (high :: low :: rest) = some (low, index + 1) := by
        rw [stray?_cons, hvalue, stray?_cons, hlow]
        rfl
      exact .inl ⟨low, index + 1, hstray, rfl⟩
  | case5 index high low rest a b hlow hhigh ih =>
    have hstray : stray? index (high :: low :: rest) = stray? (index + 2) rest := by
      rw [stray?_cons, hhigh, stray?_cons, hlow]
      rfl
    simp only [List.length_cons] at heven ⊢
    rw [hstray]
    obtain ⟨byte, position, hrest, herror⟩ | ⟨hrest, bytes, hbytes, hlen⟩ := ih (by omega)
    · exact .inl ⟨byte, position, hrest, by rw [herror]; rfl⟩
    · refine .inr ⟨hrest, (16 * a + b) :: bytes, by rw [hbytes]; rfl, ?_⟩
      rw [List.length_cons]
      omega

theorem decode_of_odd {s : String} (h : (Utf8.encode s).length % 2 = 1) :
    decode s = .error .oddLength := if_pos h

theorem decode_of_even {s : String} (h : (Utf8.encode s).length % 2 = 0) :
    decode s = decodePairs 0 (Utf8.encode s) := if_neg (by omega)

end QubitWarden.Hex
