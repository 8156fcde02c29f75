import QubitWarden.Mediation.Mediator

/-!
# An authority with prepared answers

Whatever token is presented, the answers come one after the other from two lists; after the last one
every token is accepted. It stands for an authority that the mediator knows nothing about.

* `Scripted.authority`: the authority over the answers that are left.
-/

namespace QubitWarden

/-- The answers that are left; none is an acceptance. -/
structure Scripted where
  checks : List (Option TokenError)
  consumptions : List (Option TokenError)
  deriving DecidableEq

namespace Scripted

/-- The next answer and those after it. -/
def next : List (Option TokenError) → Except TokenError Unit × List (Option TokenError)
  | [] => (.ok (), [])
  | none :: rest => (.ok (), rest)
  | some e :: rest => (.error e, rest)

/-- The authority that gives the prepared answers. -/
def authority : Authority Scripted where
  check s _ := ((next s.checks).1, { s with checks := (next s.checks).2 })
  consume s _ := ((next s.consumptions).1, { s with consumptions := (next s.consumptions).2 })

end Scripted

end QubitWarden
