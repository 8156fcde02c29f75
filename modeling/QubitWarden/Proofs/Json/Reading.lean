import QubitWarden.Json.Printer
import QubitWarden.Json.Reader
import QubitWarden.Proofs.Text.Spelling

/-!
# What is written is read back

The compact text of a value is read as this value, whatever its texts hold. A reader that is given
the text of a part and what follows it gives the part and what follows it.

* `stringLiteral_body`: a literal ends at its closing quote, with every escape undone.
* `numeral_repr`: a number ends before the character that delimits it, and has no leading zero.
* `Plain.readBack`: by induction on the value, for any fuel that the length of its text allows.
* `parse?_render`: so the bytes of a value whose numbers are natural stand for it.
* `members?_ofMembers`, `word64?_natural`, `optional?_ofText?`: what was put into a value.
-/

namespace QubitWarden.Json

/-! ## Blanks -/

/-- The characters that end the reading of blanks, apart from a closing bracket. -/
def Solid (c : Char) : Prop := c ≠ ' ' ∧ c ≠ '\n' ∧ c ≠ '\t' ∧ c ≠ '\r' ∧ c ≠ ']'

instance (c : Char) : Decidable (Solid c) := inferInstanceAs (Decidable (_ ∧ _))

theorem skipBlank_solid {c : Char} (hc : Solid c) (rest : Input) :
    skipBlank (some c :: rest) = some c :: rest := by
  obtain ⟨hspace, hline, htab, hreturn, -⟩ := hc
  simp [skipBlank, hspace, hline, htab, hreturn]

theorem solid_of_isDigit {c : Char} (hc : c.isDigit = true) : Solid c := by
  refine ⟨?_, ?_, ?_, ?_, ?_⟩ <;> (rintro rfl; exact absurd hc (by decide))

/-! ## Strings -/

/-- The piece that a written character is read as. -/
def pieceOf (c : Char) : Piece :=
  if c.toNat < 32 ∧ c ∉ ['\x08', '\t', '\n', '\x0c', '\r'] then .unit c.toNat else .char c

theorem codeUnit?_digitChar : ∀ n, n < 32 →
    codeUnit? '0' '0' (Nat.digitChar (n / 16)) (Nat.digitChar (n % 16)) = some n := by
  decide

theorem pieces_self {c : Char} (hquote : c ≠ '"') (hslash : c ≠ '\\') (hcontrol : ¬ c.toNat < 32)
    (rest : Input) :
    pieces (some c :: rest) = (pieces rest).map fun (ps, rest) => (.char c :: ps, rest) := by
  rw [pieces.eq_def]
  simp only [hquote, hslash, hcontrol, if_false]

theorem pieces_escape (c : Char) (rest : Input) :
    pieces ((escape c).map some ++ rest) =
      (pieces rest).map fun (ps, rest) => (pieceOf c :: ps, rest) := by
  unfold escape
  -- The short escapes, each at its character.
  iterate 7
    split
    next h => subst h; simp [pieces, pieceOf, shortEscape?]
  split
  next hcontrol => simp [pieces, pieceOf, codeUnit?_digitChar _ hcontrol, *]
  next hquote hslash _ _ _ _ _ hcontrol =>
    have hpiece : pieceOf c = .char c := if_neg fun h => hcontrol h.1
    rw [hpiece]
    exact pieces_self hquote hslash hcontrol rest

/-- A unit that is no half of a pair is a character, whatever follows. -/
theorem textOfPieces?_unit {u : Nat} (hhigh : isHigh u = false) (hlow : isLow u = false)
    (ps : List Piece) :
    textOfPieces? (.unit u :: ps) = (textOfPieces? ps).map (Char.ofNat u :: ·) := by
  rw [textOfPieces?.eq_def]
  rcases ps with _ | ⟨⟨c⟩ | ⟨v⟩ | _, rest⟩ <;> simp [hhigh, hlow]

theorem textOfPieces?_pieceOf (c : Char) (ps : List Piece) :
    textOfPieces? (pieceOf c :: ps) = (textOfPieces? ps).map (c :: ·) := by
  unfold pieceOf
  split
  next h =>
    have hhigh : isHigh c.toNat = false := by simp [isHigh]; omega
    have hlow : isLow c.toNat = false := by simp [isLow]; omega
    rw [textOfPieces?_unit hhigh hlow, Char.ofNat_toNat]
  next => rfl

theorem pieces_quote (rest : Input) : pieces (some '"' :: rest) = some ([], rest) := by
  rw [pieces.eq_def]
  rfl

theorem pieces_body (cs : List Char) (rest : Input) :
    pieces ((cs.flatMap escape).map some ++ some '"' :: rest) = some (cs.map pieceOf, rest) := by
  induction cs with
  | nil => exact pieces_quote rest
  | cons c cs ih =>
    rw [List.flatMap_cons, List.map_append, List.append_assoc, pieces_escape, ih]
    rfl

theorem textOfPieces?_map_pieceOf (cs : List Char) :
    textOfPieces? (cs.map pieceOf) = some cs := by
  induction cs with
  | nil => rfl
  | cons c cs ih => rw [List.map_cons, textOfPieces?_pieceOf, ih]; rfl

/-- **A literal is read up to its closing quote**, as the text that it was written for. -/
theorem exists_body (t : Option String) : ∃ body, literal t = '"' :: body ∧
    ∀ rest, stringLiteral (body.map some ++ rest) = some (t, rest) := by
  cases t with
  | none =>
    refine ⟨"\\ud800".toList ++ ['"'], rfl, fun rest => ?_⟩
    have hunit : codeUnit? 'd' '8' '0' '0' = some 0xD800 := by decide
    simp [stringLiteral, pieces, pieces_quote, hunit, textOfPieces?, isHigh]
  | some s =>
    refine ⟨s.toList.flatMap escape ++ ['"'], rfl, fun rest => ?_⟩
    have hpieces := pieces_body s.toList rest
    simp only [stringLiteral, List.map_append, List.append_assoc, List.map_cons, List.map_nil,
      List.singleton_append, hpieces, Option.map_some, textOfPieces?_map_pieceOf,
      String.ofList_toList]

/-! ## Numbers -/

/-- What may follow a value: nothing, or a character that ends it. -/
def Delimited : Input → Prop
  | [] => True
  | some c :: _ => c = ',' ∨ c = ']' ∨ c = '\x7d'
  | none :: _ => False

/-- What is read alike at the end and before each of the three characters is so read before all
that may follow a value. -/
@[elab_as_elim]
theorem Delimited.cases {P : Input → Prop} {rest : Input} (hrest : Delimited rest) (nil : P [])
    (comma : ∀ after, P (some ',' :: after)) (bracket : ∀ after, P (some ']' :: after))
    (brace : ∀ after, P (some '\x7d' :: after)) : P rest := by
  match rest with
  | [] => exact nil
  | some c :: after =>
    obtain rfl | rfl | rfl := hrest
    · exact comma after
    · exact bracket after
    · exact brace after

theorem digitRun_delimited {rest : Input} (hrest : Delimited rest) : digitRun rest = ([], rest) :=
  hrest.cases rfl (fun _ => rfl) (fun _ => rfl) fun _ => rfl

theorem digitRun_append {ds : List Char} (hds : ∀ c ∈ ds, c.isDigit = true) {rest : Input}
    (hrest : Delimited rest) : digitRun (ds.map some ++ rest) = (ds, rest) := by
  induction ds with
  | nil => exact digitRun_delimited hrest
  | cons d ds ih =>
    obtain ⟨hd, hds⟩ := List.forall_mem_cons.1 hds
    have hrange : '0' ≤ d ∧ d ≤ '9' := by
      simp only [Char.isDigit, Bool.and_eq_true, decide_eq_true_eq] at hd
      exact hd
    rw [List.map_cons, List.cons_append, digitRun, if_pos hrange, ih hds]

theorem toList_repr (n : Nat) : (Nat.repr n).toList = Nat.toDigits 10 n := Text.toList_decimal n

theorem isDigit_of_mem_digits {n : Nat} {c : Char} (hc : c ∈ Nat.toDigits 10 n) :
    c.isDigit = true :=
  Nat.isDigit_of_mem_toDigits (by decide) (by decide) hc

theorem exists_leading_digit (n : Nat) :
    ∃ c cs, Nat.toDigits 10 n = c :: cs ∧ c.isDigit = true := by
  cases hdigits : Nat.toDigits 10 n with
  | nil => exact absurd hdigits Nat.toDigits_ne_nil
  | cons c cs => exact ⟨c, cs, rfl, isDigit_of_mem_digits (hdigits ▸ List.mem_cons_self)⟩

/-- No number is written with a leading zero. -/
theorem toDigits_ne_zero_cons (n : Nat) (d : Char) (ds : List Char) :
    Nat.toDigits 10 n ≠ '0' :: d :: ds := by
  intro h
  have hread : Text.digitsFrom? 0 (d :: ds) = some n := by
    rw [← Text.ofDigits?_decimal n, Text.toList_decimal, h]
    exact (Text.digitsFrom?_zeros 1 (d :: ds)).symm
  obtain ⟨zeros, hzeros⟩ := Text.zeros_of_digitsFrom? hread
  have hlength := congrArg List.length hzeros
  rw [h] at hlength
  simp only [List.length_append, List.length_cons] at hlength
  omega

theorem integerDigits_toDigits (n : Nat) {rest : Input} (hrest : Delimited rest) :
    integerDigits ((Nat.toDigits 10 n).map some ++ rest) = some (Nat.toDigits 10 n, rest) := by
  have hrun := digitRun_append (fun _ hc => isDigit_of_mem_digits (n := n) hc) hrest
  have hsome : someDigits ((Nat.toDigits 10 n).map some ++ rest) =
      some (Nat.toDigits 10 n, rest) := by
    rw [someDigits, hrun]
    split
    next h => exact absurd (congrArg Prod.fst h) Nat.toDigits_ne_nil
    next => rfl
  rw [integerDigits, hsome]
  split
  next h => exact absurd (congrArg Prod.fst (Option.some.inj h)) (toDigits_ne_zero_cons _ _ _)
  next => rfl

theorem fraction_delimited {rest : Input} (hrest : Delimited rest) :
    fraction rest = some ([], rest) :=
  hrest.cases rfl (fun _ => rfl) (fun _ => rfl) fun _ => rfl

theorem exponent_delimited {rest : Input} (hrest : Delimited rest) :
    exponent rest = some ([], rest) :=
  hrest.cases rfl (fun _ => rfl) (fun _ => rfl) fun _ => rfl

/-- **A number is read up to the character that delimits it.** -/
theorem numeral_repr (n : Nat) {rest : Input} (hrest : Delimited rest) :
    numeral ((Nat.repr n).toList.map some ++ rest) = some (.natural n, rest) := by
  have hread : unsignedNumber [] ((Nat.toDigits 10 n).map some ++ rest) =
      some (.natural n, rest) := by
    have hvalue : Text.ofDigits? (Nat.toDigits 10 n) = some n := by
      rw [← Text.toList_decimal, Text.ofDigits?_decimal]
    simp [unsignedNumber, integerDigits_toDigits n hrest, fraction_delimited hrest,
      exponent_delimited hrest, hvalue]
  rw [toList_repr, numeral]
  · exact hread
  · -- A minus sign is no digit.
    intro after h
    obtain ⟨c, cs, hcs, hdigit⟩ := exists_leading_digit n
    rw [hcs] at h
    obtain rfl : c = '-' := Option.some.inj (List.cons.inj h).1
    exact absurd hdigit (by decide)

/-! ## Values -/

/-- Every number in the value is a natural one. -/
inductive Plain : Json → Prop
  | null : Plain .null
  | bool (b : Bool) : Plain (.bool b)
  | natural (n : Nat) : Plain (.natural n)
  | string (t : Option String) : Plain (.string t)
  | array {items : List Json} (h : ∀ item ∈ items, Plain item) : Plain (.array items)
  | object {members : List (Option String × Json)} (h : ∀ m ∈ members, Plain m.2) :
      Plain (.object members)

/-- The text of the value is read as the value, up to what ends it. -/
def ReadBack (j : Json) : Prop :=
  ∀ {fuel : Nat} {rest : Input}, (chars j).length ≤ fuel → Delimited rest →
    value fuel ((chars j).map some ++ rest) = some (j, rest)

theorem Plain.exists_solid {j : Json} (h : Plain j) : ∃ c cs, chars j = c :: cs ∧ Solid c := by
  cases h with
  | null => exact ⟨_, _, rfl, by decide⟩
  | bool b => cases b <;> exact ⟨_, _, rfl, by decide⟩
  | natural n =>
    obtain ⟨c, cs, hcs, hdigit⟩ := exists_leading_digit n
    exact ⟨c, cs, by rw [chars, toList_repr, hcs], solid_of_isDigit hdigit⟩
  | string t =>
    obtain ⟨body, hbody, -⟩ := exists_body t
    exact ⟨_, _, hbody, by decide⟩
  | array => exact ⟨_, _, rfl, by decide⟩
  | object => exact ⟨_, _, rfl, by decide⟩

theorem itemChars_cons (item second : Json) (more : List Json) :
    itemChars (item :: second :: more) = chars item ++ ',' :: itemChars (second :: more) := by
  rw [itemChars]
  simp

theorem memberChars_cons (m second : Option String × Json) (more : List (Option String × Json)) :
    memberChars (m :: second :: more) =
      literal m.1 ++ ':' :: (chars m.2 ++ ',' :: memberChars (second :: more)) := by
  rw [memberChars]
  simp

/-- Every item uses up its text and the character after it, so the fuel lasts. -/
theorem items_itemChars {l : List Json} (hne : l ≠ []) (h : ∀ item ∈ l, ReadBack item) {fuel : Nat}
    (hfuel : (itemChars l).length ≤ fuel) (rest : Input) :
    items fuel ((itemChars l).map some ++ rest) = some (l, rest) := by
  induction l generalizing fuel with
  | nil => exact absurd rfl hne
  | cons item more ih =>
    obtain ⟨hitem, hmore⟩ := List.forall_mem_cons.1 h
    cases fuel with
    | zero => cases more <;> simp [itemChars] at hfuel
    | succ fuel =>
      cases more with
      | nil =>
        have hlen : (chars item).length ≤ fuel := by simpa [itemChars] using hfuel
        have hread : value fuel ((chars item).map some ++ some ']' :: rest) =
            some (item, some ']' :: rest) := hitem hlen (.inr (.inl rfl))
        simp [itemChars, items, hread, skipBlank]
      | cons second more =>
        rw [itemChars_cons] at hfuel ⊢
        rw [List.length_append, List.length_cons] at hfuel
        have hread : value fuel ((chars item).map some ++
            some ',' :: ((itemChars (second :: more)).map some ++ rest)) =
              some (item, some ',' :: ((itemChars (second :: more)).map some ++ rest)) :=
          hitem (by omega) (.inl rfl)
        have hrest : items fuel ((itemChars (second :: more)).map some ++ rest) =
            some (second :: more, rest) := ih (List.cons_ne_nil _ _) hmore (by omega)
        simp [items, hread, skipBlank, hrest]

/-- The same for members, each with the quotes of its key and a colon. -/
theorem members_memberChars {l : List (Option String × Json)} (hne : l ≠ [])
    (h : ∀ m ∈ l, ReadBack m.2) {fuel : Nat} (hfuel : (memberChars l).length ≤ fuel)
    (rest : Input) : members fuel ((memberChars l).map some ++ rest) = some (l, rest) := by
  induction l generalizing fuel with
  | nil => exact absurd rfl hne
  | cons m more ih =>
    obtain ⟨key, j⟩ := m
    obtain ⟨hj, hmore⟩ : ReadBack j ∧ ∀ m ∈ more, ReadBack m.2 := List.forall_mem_cons.1 h
    obtain ⟨body, hbody, hkey⟩ := exists_body key
    cases fuel with
    | zero => cases more <;> simp [memberChars] at hfuel
    | succ fuel =>
      cases more with
      | nil =>
        rw [memberChars, hbody] at hfuel ⊢
        simp only [List.length_cons, List.length_append] at hfuel
        have hread : value fuel ((chars j).map some ++ some '\x7d' :: rest) =
            some (j, some '\x7d' :: rest) := hj (by omega) (.inr (.inr rfl))
        simp [members, hread, skipBlank, hkey]
      | cons second more =>
        rw [memberChars_cons, hbody] at hfuel ⊢
        simp only [List.length_cons, List.length_append] at hfuel
        have hread : value fuel ((chars j).map some ++
            some ',' :: ((memberChars (second :: more)).map some ++ rest)) =
              some (j, some ',' :: ((memberChars (second :: more)).map some ++ rest)) :=
          hj (by omega) (.inl rfl)
        have hrest : members fuel ((memberChars (second :: more)).map some ++ rest) =
            some (second :: more, rest) := ih (List.cons_ne_nil _ _) hmore (by omega)
        simp [members, hread, skipBlank, hkey, hrest]

/-! ## Whole values -/

theorem value_array {l : List Json} (hplain : ∀ item ∈ l, Plain item)
    (h : ∀ item ∈ l, ReadBack item) {fuel : Nat} (hfuel : (itemChars l).length ≤ fuel)
    (rest : Input) :
    value (fuel + 1) (some '[' :: ((itemChars l).map some ++ rest)) = some (.array l, rest) := by
  cases l with
  | nil => simp [value, itemChars, skipBlank]
  | cons item more =>
    have hitems := items_itemChars (List.cons_ne_nil item more) h hfuel rest
    obtain ⟨c, cs, hc, hsolid⟩ := (hplain item List.mem_cons_self).exists_solid
    obtain ⟨after, hafter⟩ : ∃ after, itemChars (item :: more) = c :: after := by
      cases more with
      | nil => exact ⟨_, by rw [itemChars, hc, List.cons_append]⟩
      | cons second more => exact ⟨_, by rw [itemChars_cons, hc, List.cons_append]⟩
    rw [hafter, List.map_cons, List.cons_append] at hitems ⊢
    rw [value, skipBlank_solid (by decide)]
    simp only [Char.reduceEq, if_false, if_true, skipBlank_solid hsolid]
    split
    next h => exact absurd (Option.some.inj (List.cons.inj h).1) hsolid.2.2.2.2
    next => rw [hitems, Option.map_some]

theorem value_object {l : List (Option String × Json)} (h : ∀ m ∈ l, ReadBack m.2) {fuel : Nat}
    (hfuel : (memberChars l).length ≤ fuel) (rest : Input) :
    value (fuel + 1) (some '\x7b' :: ((memberChars l).map some ++ rest)) =
      some (.object l, rest) := by
  cases l with
  | nil => simp [value, memberChars, skipBlank]
  | cons m more =>
    have hmembers := members_memberChars (List.cons_ne_nil m more) h hfuel rest
    obtain ⟨body, hbody, -⟩ := exists_body m.1
    obtain ⟨after, hafter⟩ : ∃ after, memberChars (m :: more) = '"' :: after := by
      cases more with
      | nil => exact ⟨_, by rw [memberChars, hbody, List.cons_append]⟩
      | cons second more => exact ⟨_, by rw [memberChars_cons, hbody, List.cons_append]⟩
    rw [hafter, List.map_cons, List.cons_append] at hmembers ⊢
    simp [value, skipBlank, hmembers]

theorem value_natural (n : Nat) (fuel : Nat) {rest : Input} (hrest : Delimited rest) :
    value (fuel + 1) ((Nat.repr n).toList.map some ++ rest) = some (.natural n, rest) := by
  have hread := numeral_repr n hrest
  obtain ⟨c, cs, hcs, hdigit⟩ := exists_leading_digit n
  have hne (d : Char) (hd : d.isDigit = false) : c ≠ d := by
    rintro rfl
    rw [hdigit] at hd
    cases hd
  rw [toList_repr, hcs, List.map_cons, List.cons_append] at hread ⊢
  rw [value, skipBlank_solid (solid_of_isDigit hdigit)]
  simp only [hne '"' rfl, hne '[' rfl, hne '\x7b' rfl, hne 'n' rfl, hne 't' rfl, hne 'f' rfl,
    if_false, or_self]
  exact hread

/-- No text is empty, so there is fuel for the first step. -/
theorem Plain.readBack_of_step {j : Json} (h : Plain j)
    (step : ∀ {fuel : Nat} {rest : Input}, (chars j).length ≤ fuel + 1 → Delimited rest →
      value (fuel + 1) ((chars j).map some ++ rest) = some (j, rest)) : ReadBack j := by
  intro fuel rest hfuel hrest
  cases fuel with
  | zero =>
    obtain ⟨c, cs, hc, -⟩ := h.exists_solid
    rw [hc] at hfuel
    exact absurd hfuel (Nat.not_succ_le_zero _)
  | succ fuel => exact step hfuel hrest

/-- **A value whose numbers are natural is read back from its text.** -/
theorem Plain.readBack {j : Json} (h : Plain j) : ReadBack j := by
  induction h with
  | null => exact Plain.null.readBack_of_step fun _ _ => by simp [chars, value, skipBlank, keyword]
  | bool b =>
    refine (Plain.bool b).readBack_of_step fun _ _ => ?_
    cases b <;> simp [chars, value, skipBlank, keyword]
  | natural n => exact (Plain.natural n).readBack_of_step fun _ hrest => value_natural n _ hrest
  | string t =>
    refine (Plain.string t).readBack_of_step fun _ _ => ?_
    obtain ⟨body, hbody, hread⟩ := exists_body t
    simp [chars, hbody, value, skipBlank, hread]
  | array hplain ih =>
    refine (Plain.array hplain).readBack_of_step fun hfuel _ => ?_
    rw [chars, List.length_cons] at hfuel
    rw [chars]
    exact value_array hplain ih (Nat.le_of_succ_le_succ hfuel) _
  | object hplain ih =>
    refine (Plain.object hplain).readBack_of_step fun hfuel _ => ?_
    rw [chars, List.length_cons] at hfuel
    rw [chars]
    exact value_object ih (Nat.le_of_succ_le_succ hfuel) _

theorem parse?_render {j : Json} (h : Plain j) : parse? (Utf8.encode j.render) = some j := by
  have hscan : Utf8.scan (Utf8.encode j.render) = (chars j).map some := by
    rw [Utf8.scan_encode, render, String.toList_ofList]
  have hread : value (2 * (chars j).length + 2) ((chars j).map some) = some (j, []) := by
    have hwhole : value (2 * (chars j).length + 2) ((chars j).map some ++ []) = some (j, []) :=
      h.readBack (by omega) trivial
    rwa [List.append_nil] at hwhole
  simp [parse?, hscan, hread, skipBlank]

/-! ## Taking values apart -/

theorem mapM_map_of_inverse {α β : Type} (write : α → β) (read : β → Option α)
    (h : ∀ a, read (write a) = some a) (l : List α) : (l.map write).mapM read = some l := by
  induction l with
  | nil => rfl
  | cons a rest ih => simp [h, ih]

theorem members?_ofMembers (members : List (String × Json)) :
    (ofMembers members).members? = some members :=
  mapM_map_of_inverse (fun m : String × Json => (some m.1, m.2))
    (fun m : Option String × Json => m.1.map fun k => (k, m.2)) (fun _ => rfl) members

theorem word64?_natural (n : UInt64) : (natural n.toNat).word64? = some n := by
  simp [word64?, n.toNat_lt]

theorem optional?_ofText? (t : Option String) : (ofText? t).optional? text? = some t := by
  cases t <;> rfl

end QubitWarden.Json
