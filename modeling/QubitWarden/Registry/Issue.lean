import QubitWarden.Registry.Basic

/-!
# Operations on the registry

Each operation gives its result together with the registry afterwards, whether it succeeds or not.
The time and the identifier of a new token come from outside.

* `Registry.create`: a new root token, or a child of a presented parent.
* `Registry.attenuate`: a child that keeps the tenant, the session and the expiry of its parent.
* `Registry.use`: one more use of a presented token.
* `Registry.revoke`, `Registry.collectExpired`: revocation entries stay when records are dropped.
-/

namespace QubitWarden

/-- What a new token is asked to grant. -/
structure TokenRequest where
  capabilities : CapabilitySet
  tenant : Tenant
  session : Option Session := none
  ttl : Option UInt64 := none
  maxUses : Option UInt32 := none
  deriving DecidableEq

namespace Registry

/-- Refuses an empty set, and one that exceeds its source. -/
def checkSubset (requested source : CapabilitySet) : Except TokenError Unit :=
  if requested.isEmpty then .error .emptyCapabilitySet
  else if requested.isSubset source then .ok ()
  else .error (.notASubset (requested.difference source))

/-- Refuses a depth beyond the limit. -/
def checkDepth (policy : TokenPolicy) (depth : UInt32) : Except TokenError Unit :=
  if policy.maxDepth < depth then .error (.delegationTooDeep depth policy.maxDepth) else .ok ()

/-- The smaller of the requested limit and what the parent has left, as far as they are there. -/
def capUses : (requested remaining : Option UInt32) → Option UInt32
  | some requested, some remaining => some (min requested remaining)
  | requested, none => requested
  | none, remaining => remaining

/-- The grant of a new root token. -/
def rootGrant (policy : TokenPolicy) (now : Timestamp) (id : TokenId) (request : TokenRequest) :
    Grant where
  id := id
  capabilities := request.capabilities
  tenant := request.tenant
  session := request.session
  issuedAt := now
  expiresAt := Saturating.add64 now (request.ttl.getD policy.defaultTtl)
  maxUses := request.maxUses
  parent := none
  depth := 0

/-- The grant of a new child of `parent`: it neither outlives nor outlasts its parent. -/
def childGrant (policy : TokenPolicy) (reg : Registry) (now : Timestamp) (id : TokenId)
    (request : TokenRequest) (parent : Token) : Grant :=
  let root := rootGrant policy now id request
  { root with
    expiresAt := min root.expiresAt parent.expiresAt
    maxUses := capUses request.maxUses (reg.remainingUses parent.id)
    parent := some parent.id
    depth := Saturating.succ32 parent.depth }

/-- The grant of a token that narrows `source`. -/
def narrowedGrant (reg : Registry) (now : Timestamp) (id : TokenId) (capabilities : CapabilitySet)
    (source : Token) : Grant where
  id := id
  capabilities := capabilities
  tenant := source.tenant
  session := source.session
  issuedAt := now
  expiresAt := source.expiresAt
  maxUses := reg.remainingUses source.id
  parent := some source.id
  depth := Saturating.succ32 source.depth

/-- The grant that a request leads to, with or without a parent, or the reason to refuse it. -/
def requestedGrant (issuer : Issuer) (reg : Registry) (now : Timestamp) (id : TokenId)
    (request : TokenRequest) (parent : Option Token) : Except TokenError Grant :=
  if request.capabilities.isEmpty then .error .emptyCapabilitySet
  else
    match parent with
    | none => .ok (rootGrant issuer.policy now id request)
    | some parent => do
      checkSubset request.capabilities parent.capabilities
      checkDepth issuer.policy (Saturating.succ32 parent.depth)
      reg.evaluate issuer.sign now parent
      return childGrant issuer.policy reg now id request parent

/-- Issues a token with the identifier `id`. -/
def create (issuer : Issuer) (reg : Registry) (now : Timestamp) (id : TokenId)
    (request : TokenRequest) (parent : Option Token) : Except TokenError Token × Registry :=
  match requestedGrant issuer reg now id request parent with
  | .error e => (.error e, reg)
  | .ok grant =>
    let token := grant.sign issuer.sign
    (.ok token, { reg.put token with issued := reg.issued + 1 })

/-- The grant of a token that narrows a presented one, or the reason to refuse it. -/
def attenuatedGrant (issuer : Issuer) (reg : Registry) (now : Timestamp) (id : TokenId)
    (source : Token) (capabilities : CapabilitySet) : Except TokenError Grant := do
  reg.evaluate issuer.sign now source
  checkSubset capabilities source.capabilities
  checkDepth issuer.policy (Saturating.succ32 source.depth)
  return narrowedGrant reg now id capabilities source

/-- Issues a token with the identifier `id` that narrows a presented one. -/
def attenuate (issuer : Issuer) (reg : Registry) (now : Timestamp) (id : TokenId)
    (source : Token) (capabilities : CapabilitySet) : Except TokenError Token × Registry :=
  match attenuatedGrant issuer reg now id source capabilities with
  | .error e => (.error e, reg)
  | .ok grant =>
    let token := grant.sign issuer.sign
    (.ok token, { reg.put token with attenuated := reg.attenuated + 1 })

/-- Counts one use of a presented token and gives the uses so far. -/
def use (sign : Signer) (reg : Registry) (now : Timestamp) (t : Token) :
    Except TokenError UInt32 × Registry :=
  match reg.evaluate sign now t with
  | .error e => (.error e, reg)
  | .ok () =>
    match reg.find? t.id with
    | none => (.error .unknownToken, reg)
    | some record => (.ok record.use.useCount, reg.modify t.id Token.use)

/-- Revokes an identifier, issued or not; the result says whether it was not revoked before. -/
def revoke (reg : Registry) (id : TokenId) : Bool × Registry :=
  let marked := reg.modify id Token.revoke
  if reg.isRevoked id then (false, marked)
  else (true, { marked with revokedIds := reg.revokedIds ++ [id] })

/-- Drops the records of expired tokens and gives their number. -/
def collectExpired (reg : Registry) (now : Timestamp) : Nat × Registry :=
  let kept := reg.records.filter fun t => !t.isExpiredAt now
  let dropped := reg.records.length - kept.length
  (dropped, { reg with records := kept, collected := reg.collected + dropped })

end Registry

end QubitWarden
