import QubitWarden.Association
import QubitWarden.Proofs.Token.Id
import QubitWarden.Registry.Basic
import QubitWarden.Token.Fields

/-!
# Transport of a token

A token travels as a map of texts, and whoever forwards the map may spell its texts in other ways.
The token that arrives is the one that was sent all the same.

* `Spells`: what a map has to have for each field of a token; other fields do not matter.
* `ofFields_eq_ok_iff`: a map is read as a token exactly if it spells it.
* `get?_toFields`, `spells_toFields`: the canonical map of a token, which spells it.
* `transport_exact`: reading and writing lose nothing, and a token that was sent on is judged as it
  was before.
-/

namespace QubitWarden

/-! ## Values -/

namespace Token

/-- The text is wire names of the members of the set, joined by commas: each at least once, in any
order. -/
def SpellsSet (joined : String) (s : CapabilitySet) : Prop :=
  ∃ cs, joined = ",".intercalate (cs.map Capability.name) ∧ CapabilitySet.ofList cs = s

/-- The text is hexadecimal digits of the signature, in either case. -/
def SpellsSignature (text : String) (d : Digest) : Prop := Text.lower text = Hex.encode d.toBytes

/-- The text is a spelling of the identifier, in either case. -/
def SpellsId (text : String) (id : TokenId) : Prop := Text.lower text ∈ id.spellings

/-- The text is a numeral of the word. -/
def SpellsWord32 (text : String) (n : UInt32) : Prop := Text.Numeral text n.toNat

def SpellsWord64 (text : String) (n : UInt64) : Prop := Text.Numeral text n.toNat

def SpellsMark (text : String) (b : Bool) : Prop := text = if b then "true" else "false"

theorem readSet_eq_ok_iff {joined : String} {s : CapabilitySet} :
    CapabilitySet.read joined = .ok s ↔ SpellsSet joined s := by
  rw [SpellsSet, ← CapabilitySet.parse_eq_ok_iff]
  exact mapError_eq_ok_iff

theorem readSignature_eq_ok_iff {text : String} {d : Digest} :
    readSignature text = .ok d ↔ SpellsSignature text d := by
  rw [SpellsSignature, ← Hex.decode_eq_ok_iff, readSignature]
  split
  next cause hcause =>
    rw [hcause]
    exact ⟨nofun, nofun⟩
  next bytes hbytes =>
    rw [hbytes]
    constructor
    · intro h
      split at h
      next digest hdigest =>
        rw [← Except.ok.inj h, Block.toBytes_of_ofBytes? hdigest]
      next => cases h
    · intro h
      rw [Except.ok.inj h, Block.ofBytes?_toBytes]

end Token

/-! ## Entries -/

namespace FieldMap

variable {m : FieldMap} {field text : String} {α : Type}

theorem required_eq_ok_iff : m.required field = .ok text ↔ m.get? field = some text := by
  unfold required
  split <;> simp [*]

theorem read_eq_ok_iff {reader : String → Option α} {a : α} :
    read reader field text = .ok a ↔ reader text = some a := by
  unfold read
  split <;> simp [*]

theorem readId_eq_ok_iff {id : TokenId} : readId text = .ok id ↔ Token.SpellsId text id := by
  rw [Token.SpellsId, ← TokenId.parse?_eq_some_iff, readId]
  split <;> simp [*]

theorem readOptional_eq_ok_iff {reader : String → Except TokenError α} {o : Option α} :
    readOptional reader m field = .ok o ↔
      Option.Rel (fun text a => reader text = .ok a) (m.get? field) o := by
  unfold readOptional
  cases m.get? field with
  | none =>
    constructor
    · intro h
      cases h
      exact .none
    · intro h
      cases h
      rfl
  | some text =>
    constructor
    · intro h
      cases hread : reader text with
      | error fault => simp only [hread] at h; cases h
      | ok a =>
        simp only [hread] at h
        obtain rfl := Except.ok.inj h
        exact .some hread
    · intro h
      cases h with
      | some hread =>
        simp only [hread]
        rfl

end FieldMap

namespace Token

/-- The map has this field, with a text that stands for the value. -/
def Entry {α : Type} (m : FieldMap) (field : String) (Stands : String → α → Prop) (a : α) : Prop :=
  ∃ text, m.get? field = some text ∧ Stands text a

/-- The field may be left out and then stands for `default`. -/
def DefaultedEntry {α : Type} (m : FieldMap) (field : String) (Stands : String → α → Prop)
    (default a : α) : Prop :=
  m.get? field = none ∧ a = default ∨ Entry m field Stands a

/-- The field is there exactly if there is a value, with a text that stands for it. -/
def OptionalEntry {α : Type} (m : FieldMap) (field : String) (Stands : String → α → Prop) :
    Option α → Prop :=
  Option.Rel Stands (m.get? field)

/-- The map spells the token: every field of the token has one of its texts, and the map may have
other fields. -/
structure Spells (m : FieldMap) (t : Token) : Prop where
  id : Entry m "token_id" SpellsId t.id
  capabilities : Entry m "capability_set" SpellsSet t.capabilities
  nonempty : t.capabilities.isEmpty = false
  tenant : m.get? "tenant_id" = some t.tenant
  session : m.get? "session_id" = t.session
  issuedAt : Entry m "issued_at" SpellsWord64 t.issuedAt
  expiresAt : Entry m "expires_at" SpellsWord64 t.expiresAt
  maxUses : OptionalEntry m "max_uses" SpellsWord32 t.maxUses
  useCount : DefaultedEntry m "use_count" SpellsWord32 0 t.useCount
  revoked : DefaultedEntry m "revoked" SpellsMark false t.revoked
  parent : OptionalEntry m "parent_token_id" SpellsId t.parent
  depth : Entry m "delegation_depth" SpellsWord32 t.depth
  signature : Entry m "signature" SpellsSignature t.signature

section
variable {α : Type} {m : FieldMap} {field : String} {Stands : String → α → Prop} {a default : α}

theorem DefaultedEntry.exists_optional (h : DefaultedEntry m field Stands default a) :
    ∃ o, OptionalEntry m field Stands o ∧ o.getD default = a := by
  unfold OptionalEntry
  obtain ⟨habsent, rfl⟩ | ⟨text, htext, h⟩ := h
  · exact ⟨none, habsent ▸ .none, rfl⟩
  · exact ⟨some a, htext ▸ .some h, rfl⟩

theorem OptionalEntry.defaulted {o : Option α} (h : OptionalEntry m field Stands o) :
    DefaultedEntry m field Stands default (o.getD default) := by
  unfold OptionalEntry at h
  cases hget : m.get? field with
  | none =>
    rw [hget] at h
    cases h
    exact .inl ⟨hget, rfl⟩
  | some text =>
    rw [hget] at h
    cases h with
    | some h => exact .inr ⟨text, hget, h⟩

end

/-! ## Reading -/

/-- Checks that begin with a refusal go on only where there is nothing to refuse. -/
theorem refuse_eq_ok_iff {ε α β : Type} {c : Bool} {e : ε} {f : α → Except ε β}
    {x : Except ε β} {b : β} :
    (if c = true then throw e >>= f else x) = .ok b ↔ c = false ∧ x = .ok b := by
  cases c with
  | true => exact ⟨nofun, nofun⟩
  | false => exact ⟨fun h => ⟨rfl, h⟩, fun h => h.2⟩

/-- **A map is read as a token exactly if it spells it.** -/
theorem ofFields_eq_ok_iff {m : FieldMap} {t : Token} : ofFields m = .ok t ↔ Spells m t := by
  unfold ofFields
  simp only [bind_eq_ok_iff, refuse_eq_ok_iff, FieldMap.required_eq_ok_iff, readSet_eq_ok_iff,
    readSignature_eq_ok_iff, FieldMap.readId_eq_ok_iff, FieldMap.read_eq_ok_iff,
    FieldMap.readOptional_eq_ok_iff, Text.word64?_eq_some_iff, Text.word32?_eq_some_iff,
    Text.boolean?_eq_some_iff]
  constructor
  -- Each field with its text and its value, in the order in which they are read.
  · rintro ⟨capabilitiesText, hcapabilities, capabilities, hset, hnonempty,
      signatureText, hsignature, signature, hdigits, idText, hid, id, hspells, tenant, htenant,
      issuedText, hissued, issuedAt, hissuedAt, expiresText, hexpires, expiresAt, hexpiresAt,
      maxUses, hmaxUses, useCount, huseCount, revoked, hrevoked, parent, hparent,
      depthText, hdepth, depth, hdepthNumeral, h⟩
    obtain rfl := Except.ok.inj h
    exact {
      id := ⟨_, hid, hspells⟩
      capabilities := ⟨_, hcapabilities, hset⟩
      nonempty := hnonempty
      tenant := htenant
      session := rfl
      issuedAt := ⟨_, hissued, hissuedAt⟩
      expiresAt := ⟨_, hexpires, hexpiresAt⟩
      maxUses := hmaxUses
      useCount := OptionalEntry.defaulted huseCount
      revoked := OptionalEntry.defaulted hrevoked
      parent := hparent
      depth := ⟨_, hdepth, hdepthNumeral⟩
      signature := ⟨_, hsignature, hdigits⟩ }
  · intro h
    obtain ⟨idText, hid, hspells⟩ := h.id
    obtain ⟨capabilitiesText, hcapabilities, hset⟩ := h.capabilities
    obtain ⟨issuedText, hissued, hissuedAt⟩ := h.issuedAt
    obtain ⟨expiresText, hexpires, hexpiresAt⟩ := h.expiresAt
    obtain ⟨useCount, huseCount, hcount⟩ := h.useCount.exists_optional
    obtain ⟨revoked, hrevoked, hmark⟩ := h.revoked.exists_optional
    obtain ⟨depthText, hdepth, hdepthNumeral⟩ := h.depth
    obtain ⟨signatureText, hsignature, hdigits⟩ := h.signature
    refine ⟨_, hcapabilities, _, hset, h.nonempty, _, hsignature, _, hdigits, _, hid, _, hspells,
      _, h.tenant, _, hissued, _, hissuedAt, _, hexpires, _, hexpiresAt, _, h.maxUses,
      _, huseCount, _, hrevoked, _, h.parent, _, hdepth, _, hdepthNumeral, ?_⟩
    rw [hcount, hmark, h.session]
    rfl

/-! ## The canonical map -/

theorem lookup_optionalField (field key : String) (o : Option String) :
    (optionalField field o).lookup key = if key = field then o else none := by
  cases o with
  | none => rw [optionalField, List.lookup_nil, ite_self]
  | some text => rw [optionalField, Association.lookup_cons, List.lookup_nil]

/-- The fields of a token in canonical order. -/
def fieldNames : List String :=
  ["token_id", "capability_set", "tenant_id", "session_id", "issued_at", "expires_at", "max_uses",
    "use_count", "revoked", "parent_token_id", "delegation_depth", "signature"]

/-- The entry of each field in the canonical map; there are no others. -/
theorem get?_toFields (t : Token) (key : String) :
    t.toFields.get? key =
      if key = "token_id" then some t.id.toText
      else if key = "capability_set" then some t.capabilities.display
      else if key = "tenant_id" then some t.tenant
      else if key = "session_id" then t.session
      else if key = "issued_at" then some (Text.decimal t.issuedAt.toNat)
      else if key = "expires_at" then some (Text.decimal t.expiresAt.toNat)
      else if key = "max_uses" then t.maxUses.map fun n => Text.decimal n.toNat
      else if key = "use_count" then some (Text.decimal t.useCount.toNat)
      else if key = "revoked" then some (if t.revoked then "true" else "false")
      else if key = "parent_token_id" then t.parent.map TokenId.toText
      else if key = "delegation_depth" then some (Text.decimal t.depth.toNat)
      else if key = "signature" then some (Hex.encode t.signature.toBytes)
      else none := by
  simp only [FieldMap.get?, toFields, List.lookup_append, lookup_optionalField,
    Association.lookup_cons, List.lookup_nil]
  by_cases hkey : key ∈ fieldNames
  · simp only [fieldNames, List.mem_cons, List.not_mem_nil, or_false] at hkey
    rcases hkey with rfl | rfl | rfl | rfl | rfl | rfl | rfl | rfl | rfl | rfl | rfl | rfl <;> simp
  · simp only [fieldNames, List.mem_cons, List.not_mem_nil, or_false, not_or] at hkey
    simp [hkey]

theorem rel_map {α : Type} {Stands : String → α → Prop} {write : α → String}
    (h : ∀ a, Stands (write a) a) (o : Option α) : Option.Rel Stands (o.map write) o := by
  cases o with
  | none => exact .none
  | some a => exact .some (h a)

theorem spellsId_toText (id : TokenId) : SpellsId id.toText id :=
  TokenId.parse?_eq_some_iff.1 id.parse?_toText

/-- **The canonical map spells its token.** -/
theorem spells_toFields {t : Token} (h : t.capabilities.isEmpty = false) :
    Spells t.toFields t := by
  have hmaxUses : OptionalEntry t.toFields "max_uses" SpellsWord32 t.maxUses := by
    rw [OptionalEntry, get?_toFields]
    exact rel_map (fun n => Text.numeral_decimal n.toNat) t.maxUses
  have hparent : OptionalEntry t.toFields "parent_token_id" SpellsId t.parent := by
    rw [OptionalEntry, get?_toFields]
    exact rel_map spellsId_toText t.parent
  exact {
    id := ⟨_, get?_toFields t _, spellsId_toText t.id⟩
    capabilities :=
      ⟨_, get?_toFields t _, t.capabilities.toList, rfl, CapabilitySet.ofList_toList _⟩
    nonempty := h
    tenant := get?_toFields t _
    session := get?_toFields t _
    issuedAt := ⟨_, get?_toFields t _, Text.numeral_decimal _⟩
    expiresAt := ⟨_, get?_toFields t _, Text.numeral_decimal _⟩
    maxUses := hmaxUses
    useCount := .inr ⟨_, get?_toFields t _, Text.numeral_decimal _⟩
    revoked := .inr ⟨_, get?_toFields t _, rfl⟩
    parent := hparent
    depth := ⟨_, get?_toFields t _, Text.numeral_decimal _⟩
    signature := ⟨_, get?_toFields t _, Hex.lower_encode _⟩ }

theorem keys_optionalField (field : String) (o : Option String) :
    ((optionalField field o).map Prod.fst).Sublist [field] := by
  cases o with
  | none => exact List.nil_sublist _
  | some text => exact List.Sublist.refl _

theorem keys_toFields (t : Token) : (t.toFields.map Prod.fst).Sublist fieldNames := by
  have hsession := keys_optionalField "session_id" t.session
  have hmaxUses := keys_optionalField "max_uses" (t.maxUses.map fun n => Text.decimal n.toNat)
  have hparent := keys_optionalField "parent_token_id" (t.parent.map TokenId.toText)
  simp only [toFields, List.map_append]
  exact (((((List.Sublist.append (.refl _) hsession).append (.refl _)).append hmaxUses).append
    (.refl _)).append hparent).append (.refl _)

theorem nodup_toFields (t : Token) : (t.toFields.map Prod.fst).Nodup :=
  (keys_toFields t).nodup (by decide)

/-- **Transport is exact.** A map is read as a token exactly if it spells it. A token that grants
something has a map of its own, with one entry for a field, from which it is read back whole. What
is read from any map is written to that map of its own, which is read as the same token and written
again as it is; so the token is signed as before, and any registry judges it as before. -/
theorem transport_exact (m : FieldMap) (t : Token) :
    (ofFields m = .ok t ↔ Spells m t) ∧
      (t.capabilities.isEmpty = false →
        (t.toFields.map Prod.fst).Nodup ∧ ofFields t.toFields = .ok t) ∧
      (ofFields m = .ok t →
        (t.toFields.map Prod.fst).Nodup ∧
          ∃ received, ofFields t.toFields = .ok received ∧ received = t ∧
            received.toFields = t.toFields ∧
            (∀ sign, received.signatureMatches sign = t.signatureMatches sign) ∧
            ∀ sign reg now,
              Registry.evaluate sign reg now received = Registry.evaluate sign reg now t) := by
  have hread (h : t.capabilities.isEmpty = false) : ofFields t.toFields = .ok t :=
    ofFields_eq_ok_iff.2 (spells_toFields h)
  refine ⟨ofFields_eq_ok_iff, fun h => ⟨nodup_toFields t, hread h⟩, fun h => ?_⟩
  have hnonempty := (ofFields_eq_ok_iff.1 h).nonempty
  exact ⟨nodup_toFields t, t, hread hnonempty, rfl, rfl, fun _ => rfl, fun _ _ _ => rfl⟩

/-- A map with a stray field, names out of order and repeated, zeros and signs before numbers,
letters of either case, and without marks. -/
def respelled : FieldMap :=
  [("color", "blue"),
    ("signature", "0123456789ABCDEF0123456789abcdef0123456789ABCDEF0123456789abcdef"),
    ("token_id", "URN:uuid:00112233-4455-6677-8899-AABBCCDDEEFF"),
    ("capability_set", "admin,compute,admin"), ("tenant_id", ""), ("issued_at", "+007"),
    ("expires_at", "0060"), ("max_uses", "+3"),
    ("parent_token_id", "\x7b00112233-4455-6677-8899-aaBBccDDeeFE\x7d"),
    ("delegation_depth", "1")]

/-- The token that it spells. -/
def respelledToken : Token where
  id := ⟨[0x00, 0x11, 0x22, 0x33, 0x44, 0x55, 0x66, 0x77, 0x88, 0x99, 0xaa, 0xbb, 0xcc, 0xdd,
    0xee, 0xff], rfl⟩
  capabilities := .ofList [.compute, .admin]
  tenant := ""
  session := none
  issuedAt := 7
  expiresAt := 60
  maxUses := some 3
  parent := some ⟨[0x00, 0x11, 0x22, 0x33, 0x44, 0x55, 0x66, 0x77, 0x88, 0x99, 0xaa, 0xbb, 0xcc,
    0xdd, 0xee, 0xfe], rfl⟩
  depth := 1
  useCount := 0
  revoked := false
  signature :=
    ⟨(List.replicate 4 [0x01, 0x23, 0x45, 0x67, 0x89, 0xab, 0xcd, 0xef]).flatten, rfl⟩

theorem transport_exact_respelled :
    ofFields respelled = .ok respelledToken ∧ Spells respelled respelledToken ∧
      respelledToken.toFields.get? "issued_at" = some "7" ∧
      ofFields respelledToken.toFields = .ok respelledToken ∧
      ∃ received, ofFields respelledToken.toFields = .ok received ∧
        received.toFields = respelledToken.toFields := by
  have h := transport_exact respelled respelledToken
  have hread : ofFields respelled = .ok respelledToken := rfl
  obtain ⟨-, received, hreceived, -, hwritten, -⟩ := h.2.2 hread
  exact ⟨hread, h.1.1 hread, get?_toFields _ _, (h.2.1 rfl).2, received, hreceived, hwritten⟩

end Token

end QubitWarden
