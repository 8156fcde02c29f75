import QubitWarden.Token.Basic
import QubitWarden.Token.Error

/-!
# The token registry

Every issued token has a record, which is the authority for its use count and its revocation mark. A
presented token is any value at all: its fields may have been edited, its copy may be stale.

* `Registry.find?`, `Registry.put`: the record of an identifier, and registering one.
* `Registry.evaluate`: the first reason to refuse a presented token, in a fixed order: revoked,
  expired, used up, wrongly signed, not registered, registered under another signature, not
  contained in its registered parent.
-/

namespace QubitWarden

/-- The limits that new tokens are issued under. -/
structure TokenPolicy where
  /-- The lifetime of a token whose request names none. -/
  defaultTtl : UInt64 := 3600
  maxDepth : UInt32 := 8
  deriving DecidableEq

/-- A way to sign together with the limits of the tokens that are signed. -/
structure Issuer where
  sign : Signer
  policy : TokenPolicy

/-- The records of issued tokens, the identifiers that were revoked, and what has happened so
far. -/
structure Registry where
  records : List Token
  /-- Revoked identifiers, each once, issued or not. -/
  revokedIds : List TokenId
  issued : Nat
  attenuated : Nat
  collected : Nat
  deriving DecidableEq

/-- The counters of a registry. -/
structure RegistryStatistics where
  issued : Nat
  attenuated : Nat
  active : Nat
  revoked : Nat
  collected : Nat
  deriving DecidableEq

namespace Registry

def empty : Registry := ⟨[], [], 0, 0, 0⟩

instance : Inhabited Registry := ⟨empty⟩

/-- The record of an identifier. -/
def find? (reg : Registry) (id : TokenId) : Option Token := reg.records.find? fun t => t.id = id

/-- The records with the one of `t` added, or replaced if its identifier has one. -/
def putRecord (t : Token) : List Token → List Token
  | [] => [t]
  | r :: rest => if r.id = t.id then t :: rest else r :: putRecord t rest

/-- The registry with a record added or replaced. -/
def put (reg : Registry) (t : Token) : Registry := { reg with records := putRecord t reg.records }

/-- The registry with the record of an identifier changed. -/
def modify (reg : Registry) (id : TokenId) (change : Token → Token) : Registry :=
  { reg with records := reg.records.map fun t => if t.id = id then change t else t }

def isRevoked (reg : Registry) (id : TokenId) : Bool := id ∈ reg.revokedIds

/-! ## Evaluation of a presented token -/

/-- Whether the identifier was revoked, or the presented copy or the record is marked. -/
def countsAsRevoked (reg : Registry) (t : Token) : Bool :=
  reg.isRevoked t.id || t.revoked || (reg.find? t.id).any Token.revoked

/-- The larger of the uses on record and the uses that the copy admits. -/
def usesOf (reg : Registry) (t : Token) : UInt32 :=
  match reg.find? t.id with
  | some record => max record.useCount t.useCount
  | none => t.useCount

/-- The limit of the presented token, if it is reached. -/
def reachedLimit? (reg : Registry) (t : Token) : Option UInt32 :=
  t.maxUses.filter fun limit => limit ≤ reg.usesOf t

/-- Refuses a record that is not contained in its registered parent. A parent that is no longer
registered is not looked for. -/
def checkLineage (reg : Registry) (record : Token) : Except TokenError Unit :=
  match record.parent.bind reg.find? with
  | none => .ok ()
  | some parent =>
    if record.capabilities.isSubset parent.capabilities ∧
        record.depth = Saturating.succ32 parent.depth then
      .ok ()
    else .error .lineageViolation

/-- The first reason to refuse a presented token. -/
def evaluate (sign : Signer) (reg : Registry) (now : Timestamp) (t : Token) :
    Except TokenError Unit :=
  if reg.countsAsRevoked t then .error .revoked
  else if t.isExpiredAt now then .error (.expired t.expiresAt)
  else
    match reg.reachedLimit? t with
    | some limit => .error (.useLimitExceeded limit)
    | none =>
      if t.signatureMatches sign then
        match reg.find? t.id with
        | none => .error .unknownToken
        | some record =>
          if record.signature = t.signature then reg.checkLineage record
          else .error .invalidSignature
      else .error .invalidSignature

/-- The uses left on record for a token with a limit. -/
def remainingUses (reg : Registry) (id : TokenId) : Option UInt32 :=
  (reg.find? id).bind Token.remainingUses

def statistics (reg : Registry) : RegistryStatistics where
  issued := reg.issued
  attenuated := reg.attenuated
  active := reg.records.length
  revoked := reg.revokedIds.length
  collected := reg.collected

end Registry

end QubitWarden
