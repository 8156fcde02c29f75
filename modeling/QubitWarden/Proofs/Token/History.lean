import Mathlib.Data.List.Nodup
import QubitWarden.Proofs.Token.Payload

/-!
# What happened to tokens

Every machine that handles tokens tells the same facts about them. A history is the list of these
facts, oldest first, and says what was issued, presented, used, revoked and collected.

* `Fresh`, `TextsFit`, `CollisionFree`: what is assumed of a history: no identifier was drawn twice,
  no text is longer than its length word can say, and no two payloads have one tag.
* `TagsTell`: what the last two amount to, that a tag determines the grant (`tagsTell`).
-/

namespace QubitWarden

/-- A fact about tokens. -/
inductive TokenFact where
  | issued (t : Token)
  /-- The token was shown by a caller, who may have edited it. -/
  | presented (t : Token)
  /-- A use of the token that was presented under this identifier was counted. -/
  | used (id : TokenId)
  | revoked (id : TokenId)
  /-- Expired records were dropped at this time. -/
  | collected (now : Timestamp)
  deriving DecidableEq

/-- Facts about tokens, oldest first. -/
abbrev TokenHistory := List TokenFact

namespace TokenHistory

/-- The tokens as they were issued. -/
def issued (h : TokenHistory) : List Token :=
  h.filterMap fun | .issued t => some t | _ => none

/-- The tokens as they were presented. -/
def presented (h : TokenHistory) : List Token :=
  h.filterMap fun | .presented t => some t | _ => none

/-- The number of uses that were counted under an identifier. -/
def uses (h : TokenHistory) (id : TokenId) : Nat := h.countP fun f => f = .used id

/-- The identifiers that were revoked. -/
def revoked (h : TokenHistory) : List TokenId :=
  h.filterMap fun | .revoked id => some id | _ => none

/-- The times at which expired records were dropped. -/
def collections (h : TokenHistory) : List Timestamp :=
  h.filterMap fun | .collected now => some now | _ => none

/-- The grants that were signed or presented. -/
def grants (h : TokenHistory) : List Grant := (h.issued ++ h.presented).map Token.toGrant

section
variable (h k : TokenHistory)

@[simp] theorem issued_append : issued (h ++ k) = issued h ++ issued k := List.filterMap_append ..

@[simp] theorem presented_append : presented (h ++ k) = presented h ++ presented k :=
  List.filterMap_append ..

@[simp] theorem uses_append (id : TokenId) : uses (h ++ k) id = uses h id + uses k id :=
  List.countP_append ..

@[simp] theorem revoked_append : revoked (h ++ k) = revoked h ++ revoked k :=
  List.filterMap_append ..

@[simp] theorem collections_append : collections (h ++ k) = collections h ++ collections k :=
  List.filterMap_append ..

end

section
variable (ts : List Token)

@[simp] theorem issued_presented : issued (ts.map .presented) = [] := by simp [issued]

@[simp] theorem presented_presented : presented (ts.map .presented) = ts := by
  simp [presented, List.filterMap_map]

@[simp] theorem uses_presented (id : TokenId) : uses (ts.map .presented) id = 0 := by
  simp [uses, List.countP_map, Function.comp_def]

@[simp] theorem revoked_presented : revoked (ts.map .presented) = [] := by simp [revoked]

@[simp] theorem collections_presented : collections (ts.map .presented) = [] := by
  simp [collections]

end

theorem mem_grants {h : TokenHistory} {g : Grant} :
    g ∈ h.grants ↔ (∃ t ∈ h.issued, t.toGrant = g) ∨ ∃ t ∈ h.presented, t.toGrant = g := by
  simp only [grants, List.map_append, List.mem_append, List.mem_map]

theorem mem_grants_of_issued {h : TokenHistory} {t : Token} (ht : t ∈ h.issued) :
    t.toGrant ∈ h.grants := mem_grants.2 (.inl ⟨t, ht, rfl⟩)

theorem mem_grants_of_presented {h : TokenHistory} {t : Token} (ht : t ∈ h.presented) :
    t.toGrant ∈ h.grants := mem_grants.2 (.inr ⟨t, ht, rfl⟩)

theorem mem_grants_append {h : TokenHistory} (k : TokenHistory) {g : Grant} (hg : g ∈ h.grants) :
    g ∈ grants (h ++ k) := by
  rcases mem_grants.1 hg with ⟨t, ht, rfl⟩ | ⟨t, ht, rfl⟩
  · exact mem_grants_of_issued (by rw [issued_append]; exact List.mem_append_left _ ht)
  · exact mem_grants_of_presented (by rw [presented_append]; exact List.mem_append_left _ ht)

/-! ## What is assumed of a history -/

/-- No identifier was drawn twice. -/
def Fresh (h : TokenHistory) : Prop := (h.issued.map fun t => t.id).Nodup

/-- Every text of a token has a length that fits the word before it, as every text in memory has. -/
def TextsFit (h : TokenHistory) : Prop := ∀ g ∈ h.grants, g.TextsFit

/-- No two distinct payloads that were signed or presented have one tag. -/
def CollisionFree (sign : Signer) (h : TokenHistory) : Prop :=
  ∀ g ∈ h.grants, ∀ k ∈ h.grants, sign g.payload = sign k.payload → g.payload = k.payload

instance (h : TokenHistory) : Decidable h.Fresh := inferInstanceAs (Decidable (List.Nodup _))

instance (h : TokenHistory) : Decidable h.TextsFit :=
  inferInstanceAs (Decidable (∀ g ∈ h.grants, g.TextsFit))

instance (sign : Signer) (h : TokenHistory) : Decidable (h.CollisionFree sign) :=
  inferInstanceAs (Decidable (∀ g ∈ h.grants, ∀ k ∈ h.grants, _ → _))

/-- Two payloads with different tags do not collide. -/
theorem collisionFree_of_pair {sign : Signer} {h : TokenHistory} {g k : Grant}
    (hmem : ∀ x ∈ h.grants, x = g ∨ x = k) (hne : sign g.payload ≠ sign k.payload) :
    h.CollisionFree sign := by
  intro x hx y hy hs
  rcases hmem x hx with rfl | rfl <;> rcases hmem y hy with rfl | rfl
  · rfl
  · exact absurd hs hne
  · exact absurd hs.symm hne
  · rfl

/-- The tag of a payload determines its grant. -/
def TagsTell (sign : Signer) (h : TokenHistory) : Prop :=
  ∀ g ∈ h.grants, ∀ k ∈ h.grants, sign g.payload = sign k.payload → g = k

theorem tagsTell {sign : Signer} {h : TokenHistory} (texts : h.TextsFit)
    (tags : h.CollisionFree sign) : h.TagsTell sign := fun g hg k hk hs =>
  Grant.eq_of_payload_eq (texts g hg) (texts k hk) (tags g hg k hk hs)

theorem Fresh.left {h k : TokenHistory} (fresh : Fresh (h ++ k)) : Fresh h := by
  unfold Fresh at fresh ⊢
  rw [issued_append, List.map_append] at fresh
  exact (List.nodup_append.1 fresh).1

theorem TagsTell.left {sign : Signer} {h k : TokenHistory} (tags : TagsTell sign (h ++ k)) :
    TagsTell sign h := fun g hg g' hg' =>
  tags g (mem_grants_append k hg) g' (mem_grants_append k hg')

theorem Fresh.of_issued_eq {h k : TokenHistory} (fresh : k.Fresh) (hissued : h.issued = k.issued) :
    h.Fresh := by
  rw [Fresh, hissued]
  exact fresh

/-- Fewer tokens have fewer collisions. -/
theorem TagsTell.of_subset {sign : Signer} {h k : TokenHistory} (tags : k.TagsTell sign)
    (hissued : h.issued ⊆ k.issued) (hpresented : h.presented ⊆ k.presented) :
    h.TagsTell sign := by
  have hsub : ∀ g ∈ h.grants, g ∈ k.grants := by
    intro g hg
    rcases mem_grants.1 hg with ⟨t, ht, rfl⟩ | ⟨t, ht, rfl⟩
    · exact mem_grants_of_issued (hissued ht)
    · exact mem_grants_of_presented (hpresented ht)
  exact fun g hg k hk => tags g (hsub g hg) k (hsub k hk)

/-- A token issued later has an identifier of its own. -/
theorem Fresh.id_ne {h k : TokenHistory} {t u : Token} (fresh : Fresh (h ++ k))
    (ht : t ∈ h.issued) (hu : u ∈ k.issued) : t.id ≠ u.id := by
  unfold Fresh at fresh
  rw [issued_append, List.map_append, List.nodup_append] at fresh
  exact fresh.2.2 _ (List.mem_map_of_mem ht) _ (List.mem_map_of_mem hu)

/-- Two issued tokens under one identifier are one. -/
theorem Fresh.eq_of_id_eq {h : TokenHistory} {t u : Token} (fresh : h.Fresh) (ht : t ∈ h.issued)
    (hu : u ∈ h.issued) (hid : t.id = u.id) : t = u :=
  List.inj_on_of_nodup_map fresh ht hu hid

end TokenHistory

/-- A signer for small runs, which copies the bytes that follow the domain of a payload. -/
def Signer.copying : Signer := fun bytes => .ofFn fun i => bytes.getD (30 + i) 0

end QubitWarden
