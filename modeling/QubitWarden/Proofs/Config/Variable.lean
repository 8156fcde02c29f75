import QubitWarden.Config.Environment
import QubitWarden.Proofs.Text.Grammar

/-!
# The variables of the configuration

Each of the seven variables has a value of one of five kinds, each kind with a grammar of its own,
and sets one field of the configuration.

* `Reads`: a reader gives exactly the values that it should, and has one fault to report.
* `Kind.WellFormed`: the grammar of a kind, for the text without the white space around it.
* `Kind.Stands`: the value that a text stands for (`Kind.wellFormed_iff`, `Kind.renders_iff`), and
  `Kind.spells_write`: every value has such a text.
* `Kind.reads_parse`: a text is read as what it stands for, and the fault of any other text is
  reported.
* `Variable.field_assign`, `Variable.field_assign_of_ne`, `Variable.ext_field`: each variable has a
  field of its own, and the settings without a variable are the two of `bounds`.
-/

namespace QubitWarden.Config

open Text

/-! ## Readers -/

/-- The reader gives exactly the values in `P`, and has one fault to report. -/
structure Reads {ε α : Type} (x : Except ε α) (P : α → Prop) (fault : ε) : Prop where
  ok_iff : ∀ a, x = .ok a ↔ P a
  error : ∀ e, x = .error e → e = fault

namespace Reads

variable {ε ε' α : Type} {x : Except ε α} {P : α → Prop} {fault : ε}

theorem of_ok {a : α} (h : ∀ b, P b ↔ b = a) : Reads (.ok a) P fault where
  ok_iff b := by rw [h, Except.ok.injEq, eq_comm]
  error e he := by cases he

theorem of_error (h : ∀ b, ¬ P b) : Reads (.error fault) P fault where
  ok_iff b := iff_of_false (fun hb => by cases hb) (h b)
  error e he := (Except.error.inj he).symm

/-- A reader that looks a value up. -/
theorem of_option {o : Option α} (h : ∀ a, o = some a ↔ P a) (hsome : ∀ a ∈ o, x = .ok a)
    (hnone : o = none → x = .error fault) : Reads x P fault := by
  cases ho : o with
  | some a =>
    rw [hsome a ho]
    exact of_ok fun b => by rw [← h, ho, Option.some.injEq, eq_comm]
  | none =>
    rw [hnone ho]
    exact of_error fun b hb => by rw [← h, ho] at hb; cases hb

theorem mapError (h : Reads x P fault) (f : ε → ε') : Reads (x.mapError f) P (f fault) := by
  cases x with
  | ok a => exact of_ok fun b => by rw [← h.ok_iff, Except.ok.injEq, eq_comm]
  | error e =>
    rw [← h.error e rfl]
    exact of_error fun b hb => by have := (h.ok_iff b).2 hb; cases this

/-- What is not read has its fault reported. -/
theorem eq_error (h : Reads x P fault) (hnone : ∀ a, ¬ P a) : x = .error fault := by
  cases x with
  | ok a => exact absurd ((h.ok_iff a).1 rfl) (hnone a)
  | error e => rw [h.error e rfl]

end Reads

/-! ## Keys -/

/-- What is wrong with digits that are no key: their odd number, or else the first byte that is no
digit, or else the number of bytes that they stand for. -/
def keyFault (digits : Bytes) : KeyFault :=
  if digits.length % 2 = 1 then .digits .oddLength
  else
    match Hex.stray? 0 digits with
    | some (byte, position) => .digits (.invalidCharacter byte position)
    | none => .width (digits.length / 2)

theorem parseKey_eq_ok_iff {text : String} {key : Key} :
    parseKey text = .ok key ↔ lower (trim text) = Hex.encode key.secret.toBytes := by
  rw [← Hex.decode_eq_ok_iff, parseKey]
  split
  next cause hcause =>
    rw [hcause]
    exact iff_of_false (fun h => by cases h) fun h => by cases h
  next bytes hbytes =>
    rw [hbytes]
    split
    next secret hsecret =>
      rw [← Block.toBytes_of_ofBytes? hsecret]
      constructor
      · intro h
        obtain rfl := Except.ok.inj h
        rfl
      · intro h
        exact congrArg _ (congrArg _ (Block.ext (Except.ok.inj h)))
    next hwidth =>
      refine iff_of_false (fun h => by cases h) fun h => ?_
      rw [Except.ok.inj h, Block.ofBytes?_toBytes] at hwidth
      cases hwidth

theorem eq_keyFault {text : String} {fault : KeyFault} (h : parseKey text = .error fault) :
    fault = keyFault (Utf8.encode (trim text)) := by
  by_cases hodd : (Utf8.encode (trim text)).length % 2 = 1
  · rw [parseKey, Hex.decode_of_odd hodd] at h
    rw [← Except.error.inj h, keyFault, if_pos hodd]
  · rw [parseKey, Hex.decode_of_even (by omega)] at h
    rw [keyFault, if_neg hodd]
    have heven : (Utf8.encode (trim text)).length % 2 = 0 := by omega
    obtain ⟨byte, position, hstray, herror⟩ | ⟨hstray, bytes, hbytes, hlen⟩ :=
      Hex.decodePairs_cases 0 heven
    · rw [herror] at h
      rw [hstray, ← Except.error.inj h]
    · simp only [hbytes] at h
      split at h
      next => cases h
      next => rw [hstray, ← Except.error.inj h, hlen, Nat.mul_div_cancel_left _ (by decide)]

/-- The texts of a key are its digits, and any other text has its fault. -/
theorem reads_parseKey (text : String) :
    Reads (parseKey text) (fun key => lower (trim text) = Hex.encode key.secret.toBytes)
      (keyFault (Utf8.encode (trim text))) :=
  ⟨fun _ => parseKey_eq_ok_iff, fun _ => eq_keyFault⟩

/-! ## Words -/

/-- The words for either position of a switch. -/
def switchWords : Bool → List String
  | true => ["1", "true", "yes", "on"]
  | false => ["0", "false", "no", "off"]

def paddingWords : Padding → List String
  | .duplicateLast => ["duplicate_last", "duplicate"]
  | .sentinel => ["sentinel"]

theorem switch?_eq_some_iff {word : String} {b : Bool} :
    switch? word = some b ↔ word ∈ switchWords b := by
  have hapart : ∀ w ∈ switchWords false, w ∉ switchWords true := by decide
  unfold switch?
  split
  next h =>
    cases b with
    | true => exact iff_of_true rfl h
    | false => exact iff_of_false (by decide) fun h' => hapart word h' h
  next h =>
    split
    next h' =>
      cases b with
      | true => exact iff_of_false (by decide) h
      | false => exact iff_of_true rfl h'
    next h' =>
      cases b with
      | true => exact iff_of_false (by decide) h
      | false => exact iff_of_false (by decide) h'

theorem reads_parseSwitch (name text : String) :
    Reads (parseSwitch name text) (fun b => lower (trim text) ∈ switchWords b)
      (.unreadableSetting (.notBoolean name (lower (trim text)))) := by
  refine .of_option (fun _ => switch?_eq_some_iff) ?_ ?_
  · intro b hb
    rw [parseSwitch, Option.mem_def.1 hb]
  · intro hnone
    rw [parseSwitch, hnone]

theorem reads_padding (text : String) :
    Reads (Padding.parse text) (fun p => lower (trim text) ∈ paddingWords p)
      (lower (trim text)) := by
  simp only [Padding.parse, Padding.ofName?]
  generalize lower (trim text) = word
  split
  next h => exact .of_ok fun p => by subst h; cases p <;> simp [paddingWords]
  next hshort =>
    by_cases hlong : word = "duplicate_last"
    · subst hlong
      exact .of_ok fun p => by cases p <;> simp [paddingWords]
    · by_cases hsentinel : word = "sentinel"
      · subst hsentinel
        exact .of_ok fun p => by cases p <;> simp [paddingWords]
      · simp only [hlong, hsentinel, if_false]
        exact .of_error fun p => by cases p <;> simp [paddingWords, hshort, hlong, hsentinel]

/-! ## Numbers -/

theorem reads_parseNumber {α : Type} {reader : String → Option α} {P : α → Prop}
    (name text : String) (h : ∀ a, reader (trim text) = some a ↔ P a) :
    Reads (parseNumber reader name text) P (.unreadableSetting (.notNumber name text)) := by
  refine .of_option h ?_ ?_
  · intro a ha
    rw [parseNumber, Option.mem_def.1 ha]
  · intro hnone
    rw [parseNumber, hnone]

/-! ## Kinds of values -/

/-- What the text of a variable is read as. -/
inductive Kind where
  | key
  | switch
  | word32
  | word64
  | padding
  deriving DecidableEq

namespace Kind

abbrev Value : Kind → Type
  | key => Key
  | switch => Bool
  | word32 => UInt32
  | word64 => UInt64
  | padding => Padding

/-- The grammar: 64 hexadecimal digits, one of the words, or a numeral that fits its word, in any
case and with white space around it. -/
def WellFormed : Kind → String → Prop
  | key, text => (trim text).toList.length = 64 ∧ ∀ c ∈ (trim text).toList, Hex.IsDigit c
  | switch, text => lower (trim text) ∈ ["1", "true", "yes", "on", "0", "false", "no", "off"]
  | word32, text => NumeralBelow UInt32.size (trim text)
  | word64, text => NumeralBelow UInt64.size (trim text)
  | padding, text => lower (trim text) ∈ ["duplicate_last", "duplicate", "sentinel"]

instance decidableWellFormed : (k : Kind) → (text : String) → Decidable (k.WellFormed text)
  | key, text =>
    decidable_of_iff ((trim text).toList.length = 64 ∧
      (trim text).toList.all (fun c => Hex.IsDigit c) = true) (by simp [WellFormed])
  | switch, _ => inferInstanceAs (Decidable (_ ∈ _))
  | word32, _ => inferInstanceAs (Decidable (NumeralBelow _ _))
  | word64, _ => inferInstanceAs (Decidable (NumeralBelow _ _))
  | padding, _ => inferInstanceAs (Decidable (_ ∈ _))

/-- The text, without white space around it, is one of the value. -/
def Spells : (k : Kind) → (core : String) → k.Value → Prop
  | key, core, a => lower core = Hex.encode a.secret.toBytes
  | switch, core, a => lower core ∈ switchWords a
  | word32, core, a => Numeral core a.toNat
  | word64, core, a => Numeral core a.toNat
  | padding, core, a => lower core ∈ paddingWords a

/-- The text stands for the value: so does what is left when it is trimmed. -/
def Stands (k : Kind) (text : String) (a : k.Value) : Prop := k.Spells (trim text) a

/-- The text is one of the value with white space around it. -/
def Renders (k : Kind) (text : String) (a : k.Value) : Prop :=
  ∃ core, Padded text core ∧ k.Spells core a

/-- The canonical text of a value. -/
def write : (k : Kind) → k.Value → String
  | key, a => Hex.encode a.secret.toBytes
  | switch, a => if a then "true" else "false"
  | word32, a => decimal a.toNat
  | word64, a => decimal a.toNat
  | padding, a => a.name

/-- What is reported of a text that is not well formed. Of a number the text is shown as it is, of a
word what was looked up. -/
def fault (name : String) : Kind → String → ConfigError
  | key, text => .invalidKey (keyFault (Utf8.encode (trim text)))
  | switch, text => .unreadableSetting (.notBoolean name (lower (trim text)))
  | word32, text => .unreadableSetting (.notNumber name text)
  | word64, text => .unreadableSetting (.notNumber name text)
  | padding, text => .unreadableSetting (.unknownPadding (lower (trim text)))

/-- The reader of a kind. -/
def parse (name : String) : (k : Kind) → String → Except ConfigError k.Value
  | key, text => (parseKey text).mapError .invalidKey
  | switch, text => parseSwitch name text
  | word32, text => parseNumber word32? name text
  | word64, text => parseNumber word64? name text
  | padding, text =>
    (Padding.parse text).mapError fun word => .unreadableSetting (.unknownPadding word)

/-! ## Reading -/

variable {k : Kind} {name text core : String} {a b : k.Value}

/-- **A text is well formed exactly if it stands for a value.** -/
theorem wellFormed_iff : k.WellFormed text ↔ ∃ a, k.Stands text a := by
  cases k with
  | key =>
    refine (Hex.digits_iff (s := trim text) (n := 32)).trans ⟨?_, ?_⟩
    · rintro ⟨bytes, hlen, h⟩
      exact ⟨⟨⟨bytes, hlen⟩⟩, h⟩
    · rintro ⟨⟨⟨bytes, hlen⟩⟩, h⟩
      exact ⟨bytes, hlen, h⟩
  | switch =>
    refine (List.mem_append (s := switchWords true) (t := switchWords false)).trans ⟨?_, ?_⟩
    · rintro (h | h)
      · exact ⟨true, h⟩
      · exact ⟨false, h⟩
    · rintro ⟨_ | _, h⟩
      · exact .inr h
      · exact .inl h
  | word32 =>
    refine numeralBelow_iff.trans ⟨?_, ?_⟩
    · rintro ⟨n, hn, h⟩
      refine ⟨UInt32.ofNat n, ?_⟩
      show Numeral (trim text) (UInt32.ofNat n).toNat
      rwa [UInt32.toNat_ofNat_of_lt' hn]
    · rintro ⟨a, h⟩
      exact ⟨a.toNat, a.toNat_lt, h⟩
  | word64 =>
    refine numeralBelow_iff.trans ⟨?_, ?_⟩
    · rintro ⟨n, hn, h⟩
      refine ⟨UInt64.ofNat n, ?_⟩
      show Numeral (trim text) (UInt64.ofNat n).toNat
      rwa [UInt64.toNat_ofNat_of_lt' hn]
    · rintro ⟨a, h⟩
      exact ⟨a.toNat, a.toNat_lt, h⟩
  | padding =>
    refine (List.mem_append (s := paddingWords .duplicateLast)
      (t := paddingWords .sentinel)).trans ⟨?_, ?_⟩
    · rintro (h | h)
      · exact ⟨.duplicateLast, h⟩
      · exact ⟨.sentinel, h⟩
    · rintro ⟨_ | _, h⟩
      · exact .inl h
      · exact .inr h

/-- **A text is read as the value that it stands for**, and a text that stands for none has the
fault of its kind. -/
theorem reads_parse (k : Kind) (name text : String) :
    Reads (k.parse name text) (k.Stands text) (k.fault name text) := by
  cases k with
  | key => exact (reads_parseKey text).mapError ConfigError.invalidKey
  | switch => exact reads_parseSwitch name text
  | word32 => exact reads_parseNumber name text fun _ => word32?_eq_some_iff
  | word64 => exact reads_parseNumber name text fun _ => word64?_eq_some_iff
  | padding =>
    have h := (reads_padding text).mapError fun word =>
      ConfigError.unreadableSetting (.unknownPadding word)
    exact h

/-- No two values share a text. -/
theorem Stands.eq (ha : k.Stands text a) (hb : k.Stands text b) : a = b := by
  have h := (reads_parse k "" text).ok_iff
  exact Except.ok.inj (((h a).2 ha).symm.trans ((h b).2 hb))

theorem solid_of_spells (h : k.Spells core a) : Solid core := by
  cases k with
  | key => exact solid_of_lower (h ▸ Hex.solid_encode _)
  | switch =>
    have hwords : ∀ b, ∀ word ∈ switchWords b, Solid word := by decide
    exact solid_of_lower (hwords a _ h)
  | word32 => exact solid_numeral h
  | word64 => exact solid_numeral h
  | padding =>
    have hwords : ∀ p, ∀ word ∈ paddingWords p, Solid word := by
      intro p
      cases p <;> decide
    exact solid_of_lower (hwords a _ h)

/-- The texts that stand for a value are its spellings with white space around them. -/
theorem renders_iff : k.Renders text a ↔ k.Stands text a := by
  constructor
  · rintro ⟨core, hpadded, h⟩
    rwa [Stands, trim_of_padded hpadded (solid_of_spells h)]
  · exact fun h => ⟨trim text, padded_trim text, h⟩

/-- Every value has a text. -/
theorem spells_write (a : k.Value) : k.Spells (k.write a) a := by
  cases k with
  | key => exact Hex.lower_encode _
  | switch =>
    have hword : ∀ b : Bool, lower (if b then "true" else "false") ∈ switchWords b := by decide
    exact hword a
  | word32 => exact numeral_decimal _
  | word64 => exact numeral_decimal _
  | padding =>
    have hname (p : Padding) : lower p.name ∈ paddingWords p := by cases p <;> decide
    exact hname a

end Kind

/-! ## Variables -/

/-- The variables of the configuration. -/
inductive Variable where
  | signingKey
  | strictMode
  | poolSize
  | defaultQuota
  | tokenLifetime
  | delegationDepth
  | merklePadding
  deriving DecidableEq

/-- The settings without a variable: how many decisions and how many allocations are kept. -/
def bounds (c : Config) : Nat × Nat := (c.mediator.maxHistory, c.allocator.maxHistory)

namespace Variable

/-- The order in which the variables are read. -/
def all : List Variable :=
  [signingKey, strictMode, poolSize, defaultQuota, tokenLifetime, delegationDepth, merklePadding]

def name : Variable → String
  | signingKey => "QK_SIGNING_KEY"
  | strictMode => "QK_STRICT_MODE"
  | poolSize => "QK_POOL_SIZE"
  | defaultQuota => "QK_DEFAULT_QUOTA"
  | tokenLifetime => "QK_TOKEN_TTL_SECS"
  | delegationDepth => "QK_MAX_DELEGATION_DEPTH"
  | merklePadding => "QK_MERKLE_PADDING"

abbrev kind : Variable → Kind
  | signingKey => .key
  | strictMode => .switch
  | poolSize => .word32
  | defaultQuota => .word32
  | tokenLifetime => .word64
  | delegationDepth => .word32
  | merklePadding => .padding

/-- The value that a configuration has for a variable; a key may be missing. -/
def field : (v : Variable) → Config → Option v.kind.Value
  | signingKey, c => c.key
  | strictMode, c => some c.mediator.strict
  | poolSize, c => some c.allocator.poolSize
  | defaultQuota, c => some c.allocator.defaultMaxQubits
  | tokenLifetime, c => some c.tokens.defaultTtl
  | delegationDepth, c => some c.tokens.maxDepth
  | merklePadding, c => some c.padding

/-- The configuration with a value for the variable. -/
def assign : (v : Variable) → v.kind.Value → Config → Config
  | signingKey, a, c => { c with key := some a }
  | strictMode, a, c => { c with mediator.strict := a }
  | poolSize, a, c => { c with allocator.poolSize := a }
  | defaultQuota, a, c => { c with allocator.defaultMaxQubits := a }
  | tokenLifetime, a, c => { c with tokens.defaultTtl := a }
  | delegationDepth, a, c => { c with tokens.maxDepth := a }
  | merklePadding, a, c => { c with padding := a }

theorem mem_all (v : Variable) : v ∈ all := by cases v <;> decide

theorem nodup_all : all.Nodup := by decide

variable {v w : Variable}

theorem field_assign (a : v.kind.Value) (c : Config) : v.field (v.assign a c) = some a := by
  cases v <;> rfl

theorem field_assign_of_ne (h : w ≠ v) (a : v.kind.Value) (c : Config) :
    w.field (v.assign a c) = w.field c := by
  cases v <;> cases w <;> try rfl
  all_goals exact absurd rfl h

theorem bounds_assign (a : v.kind.Value) (c : Config) : (v.assign a c).bounds = c.bounds := by
  cases v <;> rfl

/-- A configuration is determined by the fields of the variables and its two bounds. -/
theorem ext_field {c d : Config} (h : ∀ v : Variable, v.field c = v.field d)
    (hbounds : c.bounds = d.bounds) : c = d := by
  obtain ⟨hdecisions, hallocations⟩ := Prod.mk.inj hbounds
  have hkey : c.key = d.key := h signingKey
  have hstrict := Option.some.inj (h strictMode)
  have hpoolSize := Option.some.inj (h poolSize)
  have hquota := Option.some.inj (h defaultQuota)
  have hlifetime := Option.some.inj (h tokenLifetime)
  have hdepth := Option.some.inj (h delegationDepth)
  have hpadding := Option.some.inj (h merklePadding)
  obtain ⟨⟨_, _⟩, ⟨_, _⟩, _, ⟨_, _, _⟩, _⟩ := c
  obtain ⟨⟨_, _⟩, ⟨_, _⟩, _, ⟨_, _, _⟩, _⟩ := d
  subst hkey hstrict hpoolSize hquota hlifetime hdepth hpadding hdecisions hallocations
  rfl

end Variable

end QubitWarden.Config
