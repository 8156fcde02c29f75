import QubitWarden.Registry.Basic

/-!
# Lineage

Who was delegated from whom, among the registered tokens. Both searches are bounded by the number of
records, which no chain of distinct records exceeds.

* `Registry.chain`: the way from a token up to its root.
* `Registry.descendants`: everything delegated from a token, nearest first.
-/

namespace QubitWarden.Registry

/-- The identifiers from `id` upwards, at most `fuel` of them. -/
def chainFrom (reg : Registry) : (fuel : Nat) → (id : TokenId) → List TokenId
  | 0, _ => []
  | fuel + 1, id =>
    match reg.find? id with
    | none => []
    | some record =>
      id :: match record.parent with
        | none => []
        | some parent => chainFrom reg fuel parent

/-- The identifiers from `id` up to its root; it ends before the first ancestor that is not
registered. -/
def chain (reg : Registry) (id : TokenId) : List TokenId := reg.chainFrom reg.records.length id

/-- The identifiers of the records whose parent is `id`. -/
def children (reg : Registry) (id : TokenId) : List TokenId :=
  (reg.records.filter fun t => t.parent = some id).map fun t => t.id

/-- The descendants of the queued identifiers in breadth-first order, from at most `fuel`
of them. -/
def descendantsFrom (reg : Registry) : (fuel : Nat) → (queue : List TokenId) → List TokenId
  | 0, _ => []
  | _, [] => []
  | fuel + 1, id :: queue =>
    let found := reg.children id
    found ++ descendantsFrom reg fuel (queue ++ found)

/-- Every registered token delegated from `id`, directly or not, nearest first. -/
def descendants (reg : Registry) (id : TokenId) : List TokenId :=
  reg.descendantsFrom (reg.records.length + 1) [id]

end QubitWarden.Registry
