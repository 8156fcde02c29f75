import Mathlib.Algebra.Group.Nat.Defs
import QubitWarden.Token.Basic

/-!
# The payload tells the grant

Each part of a payload tells where it ends, so equal payloads come from equal grants.

* `SelfDelimiting`: a way to write values that can be told apart from the front, whatever follows.
  Words of fixed width, texts and lists whose length fits the word before them, and options are
  (`word32_selfDelimiting`, `text_selfDelimiting`, `list_selfDelimiting`, `option_selfDelimiting`).
* `Grant.payload_selfDelimiting`: so is the payload of a grant whose texts fit.
* `Token.payload_unambiguous`: tokens have one payload exactly if they agree on the signed fields.
-/

namespace QubitWarden

/-- What `write` makes of values in `P` can be told apart from the front: the value and where it
ends are determined, whatever follows. -/
def SelfDelimiting {α : Type} (P : α → Prop) (write : α → Bytes) : Prop :=
  ∀ ⦃a b : α⦄, P a → P b → ∀ {r s : Bytes}, write a ++ r = write b ++ s → a = b ∧ r = s

namespace Payload

/-! ## Words -/

theorem littleEndian_inj {width m n : Nat} (hm : m < 256 ^ width) (hn : n < 256 ^ width)
    (h : littleEndian width m = littleEndian width n) : m = n := by
  induction width generalizing m n with
  | zero => omega
  | succ width ih =>
    simp only [littleEndian, List.cons.injEq] at h
    have hlow : m % 256 = n % 256 := by
      have := congrArg UInt8.toNat h.1
      simpa [UInt8.toNat_ofNat'] using this
    have hhigh : m / 256 = n / 256 := by
      rw [Nat.pow_succ] at hm hn
      exact ih (Nat.div_lt_of_lt_mul (by omega)) (Nat.div_lt_of_lt_mul (by omega)) h.2
    omega

/-- Values written on the same number of bytes end at the same place. -/
theorem selfDelimiting_of_width {α : Type} {P : α → Prop} {write : α → Bytes} {width : Nat}
    (hlen : ∀ a, (write a).length = width)
    (hinj : ∀ a b, P a → P b → write a = write b → a = b) : SelfDelimiting P write := by
  intro a b ha hb r s h
  obtain ⟨hw, hr⟩ := List.append_inj h (by rw [hlen, hlen])
  exact ⟨hinj a b ha hb hw, hr⟩

theorem littleEndian_selfDelimiting (width : Nat) :
    SelfDelimiting (· < 256 ^ width) (littleEndian width) :=
  selfDelimiting_of_width (littleEndian_length width) fun _ _ => littleEndian_inj

theorem word32_selfDelimiting : SelfDelimiting (fun _ => True) word32 :=
  selfDelimiting_of_width (fun n => littleEndian_length 4 n.toNat) fun a b _ _ h =>
    UInt32.toNat_inj.1 (littleEndian_inj a.toNat_lt b.toNat_lt h)

theorem word64_selfDelimiting : SelfDelimiting (fun _ => True) word64 :=
  selfDelimiting_of_width (fun n => littleEndian_length 8 n.toNat) fun a b _ _ h =>
    UInt64.toNat_inj.1 (littleEndian_inj a.toNat_lt b.toNat_lt h)

theorem identifier_selfDelimiting : SelfDelimiting (fun _ => True) TokenId.toBytes := by
  refine selfDelimiting_of_width TokenId.length_toBytes fun a b _ _ h => ?_
  cases a; cases b
  exact congrArg TokenId.mk (Block.ext h)

/-! ## Texts, options and lists -/

/-- The number of bytes of a text fits the word before it. -/
def TextFits (s : String) : Prop := (Utf8.encode s).length < 256 ^ 8

instance (s : String) : Decidable (TextFits s) := inferInstanceAs (Decidable (_ < _))

theorem text_selfDelimiting : SelfDelimiting TextFits text := by
  intro s t hs ht r r' h
  simp only [text, List.append_assoc] at h
  obtain ⟨hlen, hrest⟩ := littleEndian_selfDelimiting 8 hs ht h
  obtain ⟨hbytes, hr⟩ := List.append_inj hrest hlen
  exact ⟨Utf8.encode_inj hbytes, hr⟩

variable {α : Type} {P : α → Prop} {write : α → Bytes}

theorem option_selfDelimiting (hw : SelfDelimiting P write) :
    SelfDelimiting (fun o => ∀ a ∈ o, P a) (option write) := by
  intro x y hx hy r s h
  cases x with
  | none =>
    cases y with
    | none => exact ⟨rfl, List.cons.inj h |>.2⟩
    | some b => exact absurd (List.cons.inj h).1 (by decide)
  | some a =>
    cases y with
    | none => exact absurd (List.cons.inj h).1 (by decide)
    | some b =>
      obtain ⟨rfl, hr⟩ := hw (hx a rfl) (hy b rfl) (List.cons.inj h).2
      exact ⟨rfl, hr⟩

/-- As many items from either side are the same items. -/
theorem items_inj (hw : SelfDelimiting P write) {l m : List α} (hl : ∀ a ∈ l, P a)
    (hm : ∀ a ∈ m, P a) (hlen : l.length = m.length) {r s : Bytes}
    (h : l.flatMap write ++ r = m.flatMap write ++ s) : l = m ∧ r = s := by
  induction l generalizing m with
  | nil =>
    obtain rfl := List.length_eq_zero_iff.1 hlen.symm
    exact ⟨rfl, h⟩
  | cons a l ih =>
    obtain ⟨b, m, rfl⟩ := List.exists_cons_of_length_pos (l := m) (by simp [← hlen])
    simp only [List.flatMap_cons, List.append_assoc] at h
    obtain ⟨rfl, hrest⟩ := hw (hl a List.mem_cons_self) (hm b List.mem_cons_self) h
    obtain ⟨rfl, hr⟩ := ih (fun x hx => hl x (List.mem_cons_of_mem _ hx))
      (fun x hx => hm x (List.mem_cons_of_mem _ hx)) (by simpa using hlen) hrest
    exact ⟨rfl, hr⟩

theorem list_selfDelimiting (hw : SelfDelimiting P write) :
    SelfDelimiting (fun l => l.length < 256 ^ 8 ∧ ∀ a ∈ l, P a) (list write) := by
  intro l m hl hm r s h
  simp only [list, List.append_assoc] at h
  obtain ⟨hlen, h⟩ := littleEndian_selfDelimiting 8 hl.1 hm.1 h
  exact items_inj hw hl.2 hm.2 hlen h

/-! ## Capabilities by name -/

theorem names_inj {s t : CapabilitySet} (h : s.names = t.names) : s = t := by
  have hl : s.toList = t.toList :=
    (List.map_inj_right fun _ _ => Capability.name_injective).1 h
  exact CapabilitySet.ext_mem fun c => by
    rw [← CapabilitySet.mem_toList, hl, CapabilitySet.mem_toList]

theorem names_fit (s : CapabilitySet) :
    s.names.length < 256 ^ 8 ∧ ∀ name ∈ s.names, TextFits name := by
  refine ⟨?_, ?_⟩
  · have hle : s.toList.length ≤ Capability.all.length := by
      rw [s.canonical]
      exact List.length_filter_le _ _
    rw [CapabilitySet.names, List.length_map]
    exact Nat.lt_of_le_of_lt hle (by decide)
  · intro name hname
    obtain ⟨c, -, rfl⟩ := List.mem_map.1 hname
    cases c <;> decide

end Payload

/-! ## The grant -/

open Payload

/-- The texts of a grant fit the length words of its payload. -/
structure Grant.TextsFit (g : Grant) : Prop where
  tenant : TextFits g.tenant
  session : ∀ s ∈ g.session, TextFits s

instance (g : Grant) : Decidable g.TextsFit :=
  decidable_of_iff (TextFits g.tenant ∧ ∀ s ∈ g.session, TextFits s)
    ⟨fun h => ⟨h.1, h.2⟩, fun h => ⟨h.1, h.2⟩⟩

/-- **The payload tells the grant, and where it ends**: with texts that fit, no payload is the
beginning of another one. -/
theorem Grant.payload_selfDelimiting : SelfDelimiting Grant.TextsFit Grant.payload := by
  intro g k hg hk r s h
  simp only [Grant.payload, List.append_assoc] at h
  have h := List.append_cancel_left h
  obtain ⟨hid, h⟩ := identifier_selfDelimiting trivial trivial h
  obtain ⟨hnames, h⟩ := list_selfDelimiting text_selfDelimiting (names_fit _) (names_fit _) h
  obtain ⟨htenant, h⟩ := text_selfDelimiting hg.tenant hk.tenant h
  obtain ⟨hsession, h⟩ := option_selfDelimiting text_selfDelimiting hg.session hk.session h
  obtain ⟨hissued, h⟩ := word64_selfDelimiting trivial trivial h
  obtain ⟨hexpires, h⟩ := word64_selfDelimiting trivial trivial h
  obtain ⟨huses, h⟩ := option_selfDelimiting word32_selfDelimiting (fun _ _ => trivial)
    (fun _ _ => trivial) h
  obtain ⟨hparent, h⟩ := option_selfDelimiting identifier_selfDelimiting (fun _ _ => trivial)
    (fun _ _ => trivial) h
  obtain ⟨hdepth, hrest⟩ := word32_selfDelimiting trivial trivial h
  refine ⟨?_, hrest⟩
  cases g; cases k
  simp only [Grant.mk.injEq]
  exact ⟨hid, names_inj hnames, htenant, hsession, hissued, hexpires, huses, hparent, hdepth⟩

theorem Grant.eq_of_payload_eq {g k : Grant} (hg : g.TextsFit) (hk : k.TextsFit)
    (h : g.payload = k.payload) : g = k :=
  (payload_selfDelimiting hg hk (congrArg (· ++ []) h)).1

/-! ## The token -/

/-- **What a signature covers is unambiguous.** Two tokens whose texts fit have the same payload
exactly when they agree on all nine signed fields; their payloads are told apart even when other
bytes follow, and no mark and no signature has a part in them. -/
theorem Token.payload_unambiguous (t u : Token) (ht : t.TextsFit) (hu : u.TextsFit) :
    (t.payload = u.payload ↔
      t.id = u.id ∧ t.capabilities = u.capabilities ∧ t.tenant = u.tenant ∧
        t.session = u.session ∧ t.issuedAt = u.issuedAt ∧ t.expiresAt = u.expiresAt ∧
          t.maxUses = u.maxUses ∧ t.parent = u.parent ∧ t.depth = u.depth) ∧
      (∀ r s, t.payload ++ r = u.payload ++ s → t.toGrant = u.toGrant ∧ r = s) ∧
        ∀ useCount revoked signature,
          { t with useCount, revoked, signature : Token }.payload = t.payload := by
  refine ⟨⟨fun h => ?_, ?_⟩, fun r s h => Grant.payload_selfDelimiting ht hu h, fun _ _ _ => rfl⟩
  · rw [Grant.eq_of_payload_eq ht hu h]
    exact ⟨rfl, rfl, rfl, rfl, rfl, rfl, rfl, rfl, rfl⟩
  · rintro ⟨hid, hcapabilities, htenant, hsession, hissued, hexpires, huses, hparent, hdepth⟩
    simp only [Grant.payload, hid, hcapabilities, htenant, hsession, hissued, hexpires, huses,
      hparent, hdepth]

/-- A character moves from the tenant to the session, and an empty session is another one than
none. -/
theorem Token.payload_unambiguous_shifted :
    let grant : Grant := ⟨default, ∅, "ab", some "c", 1, 2, none, none, 0⟩
    let signed (g : Grant) : Token := ⟨g, 0, false, default⟩
    (signed grant).payload ≠ (signed { grant with tenant := "a", session := some "bc" }).payload ∧
      (signed { grant with session := some "" }).payload ≠
        (signed { grant with session := none }).payload := by
  intro grant signed
  refine ⟨fun h => ?_, fun h => ?_⟩
  · have hfields := (payload_unambiguous _ _ (by decide) (by decide)).1.1 h
    exact absurd hfields.2.2.1 (by decide)
  · have hfields := (payload_unambiguous _ _ (by decide) (by decide)).1.1 h
    exact absurd hfields.2.2.2.1 (by decide)

end QubitWarden
