import QubitWarden.Digest.Sha256

/-!
# Keyed digests

HMAC over SHA-256: the key is brought to 64 bytes and mixed into an inner and an outer hash. Any
key length is accepted.

* `hmac`: the tag of a message under a key.
* `Key`: a signing key of 32 bytes, which no rendering shows.
-/

namespace QubitWarden

namespace Hmac

/-- The key on 64 bytes: a longer one is hashed first, a shorter one is filled up with zeros. -/
def blockKey (key : Bytes) : Bytes :=
  let short := if 64 < key.length then (sha256 key).toBytes else key
  short ++ List.replicate (64 - short.length) 0

end Hmac

def hmac (key message : Bytes) : Digest :=
  let k := Hmac.blockKey key
  sha256 (k.map (· ^^^ 0x5c) ++ (sha256 (k.map (· ^^^ 0x36) ++ message)).toBytes)

def hmacVerify (key message : Bytes) (tag : Digest) : Bool := hmac key message = tag

/-- A signing key. -/
structure Key where
  secret : Block 32
  deriving DecidableEq

namespace Key

def sign (key : Key) (message : Bytes) : Digest := hmac key.secret.toBytes message

def verify (key : Key) (message : Bytes) (tag : Digest) : Bool :=
  hmacVerify key.secret.toBytes message tag

/-- How a key is shown: without its bytes. -/
def shown (_ : Key) : String := "SigningKey(<redacted>)"

end Key

end QubitWarden
