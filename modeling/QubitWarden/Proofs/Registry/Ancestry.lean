import Mathlib.Data.List.Chain
import Mathlib.Data.List.Perm.Subperm
import Mathlib.Logic.Function.Basic
import QubitWarden.Proofs.Registry.Forest
import QubitWarden.Registry.Lineage

/-!
# The way up from a token

The registered tokens form trees: no token is delegated before it is issued, and a collection takes
no parent before its children. So the way up from a token ends at a root and passes no token twice,
although nothing on the way remembers where it has been.

* `Stops`: a loop that ends, with its number of rounds.
* `Ranked`: each parent has a lower rank than its children (`ranked_effect`).
* `Treelike`: what holds of the registered tokens after every run (`treelike_run`);
  `Treelike.induction` goes from the roots to the children.
* `Treelike.chain_child`: the way up from a token is the token and the way up from its parent.
* `Upward`, `Treelike.upward`: what the way up is; `Treelike.stops_climb`: the loop ends with it.
-/

namespace QubitWarden

/-- `next`, done over and over from `start`, gives no further state after `rounds` rounds. -/
inductive Stops {σ : Type} (next : σ → Option σ) : (rounds : Nat) → (start stop : σ) → Prop
  | here {s : σ} : next s = none → Stops next 0 s s
  | round {s mid stop : σ} {rounds : Nat} : next s = some mid → Stops next rounds mid stop →
      Stops next (rounds + 1) s stop

namespace Registry

variable {issuer : Issuer} {policy : TokenPolicy} {reg after : Registry} {now : Timestamp}
  {h told : TokenHistory} {rank : TokenId → Nat} {r : Token} {id : TokenId}

/-! ## Ranks -/

/-- Parents rank below their children. -/
def Ranked (reg : Registry) : Prop :=
  ∃ rank : TokenId → Nat, ∀ g ∈ reg.grants, ∀ id, g.parent = some id → rank id < rank g.id

/-- A new grant ranks above its parent. Nothing registered names it as a parent yet. -/
theorem ranked_effect (hp : Provenance issuer.sign h reg) (fresh : (h ++ told).Fresh)
    (e : Effect issuer reg now told after) (hf : Forest policy reg) (hr : Ranked reg) :
    Ranked after := by
  obtain ⟨rank, hrank⟩ := hr
  obtain ⟨g, shown, origin, rfl, hgrants⟩ | ⟨rfl, hgrants⟩ | ⟨-, -, hgrants⟩ :=
    e.grants_cases hp fresh
  · have hnew : g.id ∉ reg.grants.map Grant.id :=
      hp.id_unregistered fresh (t := g.sign issuer.sign) (by simp [TokenHistory.issued])
    have hold : ∀ k ∈ reg.grants, k.id ≠ g.id := fun k hk he => hnew (he ▸ List.mem_map_of_mem hk)
    have hbelow : ∃ n, ∀ id, g.parent = some id → id ≠ g.id ∧ rank id < n := by
      cases origin with
      | root hroot => exact ⟨0, fun id hid => by rw [hroot] at hid; cases hid⟩
      | @delegated source record _ accepted delegated =>
        refine ⟨rank source.id + 1, fun id hid => ?_⟩
        obtain rfl : source.id = id := Option.some.inj (delegated.parent.symm.trans hid)
        have hne := hold _ (mem_grants_of_find? accepted.found)
        rw [id_of_find? accepted.found] at hne
        exact ⟨hne, Nat.lt_succ_self _⟩
    obtain ⟨n, hn⟩ := hbelow
    refine ⟨Function.update rank g.id n, fun child hchild id hid => ?_⟩
    rw [hgrants, List.mem_append, List.mem_singleton] at hchild
    rcases hchild with hchild | rfl
    · obtain ⟨parent, hparent, rfl, -⟩ := hf child hchild id hid
      rw [Function.update_of_ne (hold parent hparent), Function.update_of_ne (hold child hchild)]
      exact hrank child hchild _ hid
    · obtain ⟨hne, hlt⟩ := hn id hid
      rwa [Function.update_of_ne hne, Function.update_self]
  · refine ⟨rank, fun child hchild => hrank child ?_⟩
    rw [hgrants] at hchild
    exact (List.mem_filter.1 hchild).1
  · refine ⟨rank, fun child hchild => hrank child ?_⟩
    rwa [hgrants] at hchild

/-- What is issued without a parent has no delegation behind it. -/
theorem depth_of_root_issued {call : Call} {t : Token}
    (ht : t ∈ (facts (exchange (step issuer) reg now call)).issued) (hroot : t.parent = none) :
    t.depth = 0 := by
  cases call with
  | create id request parent =>
    simp only [facts, exchange, step, reply, TokenHistory.issued_append,
      TokenHistory.issued_presented, List.nil_append] at ht
    obtain ⟨e, -, hcreate⟩ | ⟨g, hg, hcreate⟩ := create_cases issuer reg now id request parent
    · rw [hcreate] at ht
      cases ht
    · rw [hcreate] at ht
      obtain rfl : t = g.sign issuer.sign := List.mem_singleton.1 ht
      cases parent with
      | none =>
        unfold requestedGrant at hg
        split at hg
        · cases hg
        · cases hg
          rfl
      | some parent =>
        obtain ⟨-, origin⟩ := requestedGrant_ok hg
        cases origin with
        | delegated accepted delegated => cases delegated.parent.symm.trans hroot
  | attenuate id source capabilities =>
    simp only [facts, exchange, step, reply, TokenHistory.issued_append] at ht
    obtain ⟨e, -, hattenuate⟩ | ⟨g, hg, hattenuate⟩ :=
      attenuate_cases issuer reg now id source capabilities
    · rw [hattenuate] at ht
      cases ht
    · rw [hattenuate] at ht
      obtain rfl : t = g.sign issuer.sign := List.mem_singleton.1 ht
      obtain ⟨-, origin⟩ := attenuatedGrant_ok hg
      cases origin with
      | delegated accepted delegated => cases delegated.parent.symm.trans hroot
  | use u =>
    cases hu : (use issuer.sign reg now u).1 with
    | error e =>
      simp only [facts, exchange, step, reply, hu] at ht
      cases ht
    | ok n =>
      simp only [facts, exchange, step, reply, hu] at ht
      cases ht
  | check | revoke | isRevoked | collectExpired => cases ht

theorem depth_of_root (issuer : Issuer) (calls : List (Timestamp × Call)) :
    ∀ t ∈ (history (run issuer calls).trace).issued, t.parent = none → t.depth = 0 := by
  refine runFrom_induction (P := fun trace _ =>
    ∀ t ∈ (history trace).issued, t.parent = none → t.depth = 0) (step issuer)
    (fun t ht => by cases ht) ?_ calls
  intro trace reg now call ih t ht
  rw [history_concat, TokenHistory.issued_append, List.mem_append] at ht
  rcases ht with ht | ht
  · exact ih t ht
  · exact depth_of_root_issued ht

/-! ## Trees -/

/-- The registered tokens form trees: a parent is registered, ranks below its children and is one
delegation nearer to its root, and a root has no delegation behind it. -/
structure Treelike (rank : TokenId → Nat) (reg : Registry) : Prop where
  distinct : reg.Distinct
  parent : ∀ r ∈ reg.records, ∀ id, r.parent = some id →
    ∃ p ∈ reg.records, p.id = id ∧ rank p.id < rank r.id ∧ r.depth = Saturating.succ32 p.depth
  root : ∀ r ∈ reg.records, r.parent = none → r.depth = 0

theorem treelike_run (calls : List (Timestamp × Call))
    (fresh : (history (run issuer calls).trace).Fresh)
    (tags : (history (run issuer calls).trace).TagsTell issuer.sign) :
    ∃ rank, Treelike rank (run issuer calls).state := by
  have hd : (run issuer calls).state.Distinct := (registration_run calls fresh tags).distinct
  have hp := provenance_run issuer calls
  obtain ⟨hf, rank, hrank⟩ : Forest issuer.policy (run issuer calls).state ∧
      Ranked (run issuer calls).state := by
    have hnone : Forest issuer.policy empty ∧ Ranked empty :=
      ⟨fun _ hchild => (nomatch hchild), fun _ => 0, fun _ hchild => (nomatch hchild)⟩
    refine invariant_run (P := fun _ reg => Forest issuer.policy reg ∧ Ranked reg) hnone
      (fun hp fresh tags e hinv => ?_) calls fresh tags
    exact ⟨forest_effect hp fresh tags e hinv.1, ranked_effect hp fresh e hinv.1 hinv.2⟩
  refine ⟨rank, hd, ?_, ?_⟩
  · intro r hr id hid
    obtain ⟨p, hfound, hcontained⟩ := hf.parent hd hr hid
    have hpid : p.id = id := id_of_find? hfound
    refine ⟨p, mem_records_of_find? hfound, hpid, ?_, hcontained.depth⟩
    rw [hpid]
    exact hrank r.toGrant (mem_grants.2 ⟨r, hr, rfl⟩) id hid
  · intro r hr hroot
    obtain ⟨t, ht, hgrant, -⟩ := hp.genuine r hr
    rw [← hgrant] at hroot ⊢
    exact depth_of_root issuer calls t ht hroot

/-- **Induction over the trees**, from the roots to the children. -/
theorem Treelike.induction (ht : Treelike rank reg) {P : Token → Prop}
    (root : ∀ r ∈ reg.records, r.parent = none → P r)
    (child : ∀ r ∈ reg.records, ∀ p ∈ reg.records, r.parent = some p.id → P p → P r) :
    ∀ r ∈ reg.records, P r := by
  intro r hr
  induction hn : rank r.id using Nat.strong_induction_on generalizing r with
  | _ n ih =>
    subst hn
    cases hparent : r.parent with
    | none => exact root r hr hparent
    | some id =>
      obtain ⟨p, hp, rfl, hlt, -⟩ := ht.parent r hr id hparent
      exact child r hr p hp hparent (ih _ hlt p hp rfl)

/-! ## The way up -/

theorem chainFrom_of_find? {fuel : Nat} (hf : reg.find? id = some r) :
    reg.chainFrom (fuel + 1) id = id :: (r.parent.map (reg.chainFrom fuel)).getD [] := by
  rw [chainFrom, hf]
  dsimp only
  cases r.parent <;> rfl

/-- More rounds only add to the end. -/
theorem chainFrom_eq_take (reg : Registry) (fuel : Nat) (id : TokenId) :
    reg.chainFrom fuel id = (reg.chainFrom (fuel + 1) id).take fuel := by
  induction fuel generalizing id with
  | zero => rfl
  | succ fuel ih =>
    cases hf : reg.find? id with
    | none => simp [chainFrom, hf]
    | some r =>
      rw [chainFrom_of_find? hf, chainFrom_of_find? hf, List.take_succ_cons]
      cases hparent : r.parent with
      | none => simp
      | some parent => simp [← ih parent]

section
variable (ht : Treelike rank reg)
include ht

theorem Treelike.find? (hr : r ∈ reg.records) : reg.find? r.id = some r :=
  find?_of_mem ht.distinct hr

/-- On the way up ranks fall, among registered tokens. -/
theorem Treelike.chainFrom_spec (fuel : Nat) : ∀ r ∈ reg.records,
    (reg.chainFrom fuel r.id).Nodup ∧
      ∀ id ∈ reg.chainFrom fuel r.id, id ∈ reg.records.map (fun t => t.id) ∧
        rank id ≤ rank r.id := by
  induction fuel with
  | zero => exact fun r _ => ⟨List.nodup_nil, fun id hid => absurd hid List.not_mem_nil⟩
  | succ fuel ih =>
    intro r hr
    have hmem : r.id ∈ reg.records.map (fun t => t.id) := List.mem_map_of_mem hr
    rw [chainFrom_of_find? (ht.find? hr)]
    cases hparent : r.parent with
    | none => simpa using hmem
    | some id =>
      obtain ⟨p, hp, rfl, hlt, -⟩ := ht.parent r hr id hparent
      obtain ⟨hnodup, hbelow⟩ := ih p hp
      simp only [Option.map_some, Option.getD_some, List.nodup_cons, List.forall_mem_cons]
      refine ⟨⟨fun hr' => ?_, hnodup⟩, ⟨hmem, Nat.le_refl _⟩, fun id hid => ?_⟩
      · have := (hbelow _ hr').2
        omega
      · obtain ⟨hid', hle⟩ := hbelow id hid
        exact ⟨hid', by omega⟩

/-- As many rounds as there are records are enough. -/
theorem Treelike.chain_eq (hr : r ∈ reg.records) :
    reg.chain r.id = reg.chainFrom (reg.records.length + 1) r.id := by
  obtain ⟨hnodup, hmem⟩ := ht.chainFrom_spec (reg.records.length + 1) r hr
  have hle := (List.subperm_of_subset hnodup fun id hid => (hmem id hid).1).length_le
  rw [List.length_map] at hle
  rw [chain, chainFrom_eq_take, List.take_of_length_le hle]

theorem Treelike.chain_root (hr : r ∈ reg.records) (hroot : r.parent = none) :
    reg.chain r.id = [r.id] := by
  rw [ht.chain_eq hr, chainFrom_of_find? (ht.find? hr), hroot]
  rfl

/-- **The way up from a child is the child and the way up from its parent.** -/
theorem Treelike.chain_child (hr : r ∈ reg.records) (hparent : r.parent = some id) :
    reg.chain r.id = r.id :: reg.chain id := by
  rw [ht.chain_eq hr, chainFrom_of_find? (ht.find? hr), hparent]
  rfl

theorem Treelike.chain_cons (hr : r ∈ reg.records) :
    reg.chain r.id = r.id :: (reg.chain r.id).tail := by
  cases hparent : r.parent with
  | none => rw [ht.chain_root hr hparent, List.tail_cons]
  | some id => rw [ht.chain_child hr hparent, List.tail_cons]

omit ht in
theorem chain_of_unregistered (hf : reg.find? id = none) : reg.chain id = [] := by
  unfold chain
  cases reg.records.length with
  | zero => rfl
  | succ fuel => rw [chainFrom, hf]

theorem Treelike.nodup_chain (hr : r ∈ reg.records) : (reg.chain r.id).Nodup :=
  (ht.chainFrom_spec _ r hr).1

/-- The depth of a token counts the way up, as far as its word goes. -/
theorem Treelike.depth_eq : ∀ r ∈ reg.records,
    r.depth.toNat = min ((reg.chain r.id).length - 1) (UInt32.size - 1) := by
  refine ht.induction ?_ ?_
  · intro r hr hroot
    rw [ht.chain_root hr hroot, ht.root r hr hroot]
    rfl
  · intro r hr p hp hparent ih
    obtain ⟨q, hq, hid, -, hdepth⟩ := ht.parent r hr _ hparent
    have hfound := ht.find? hq
    rw [hid, ht.find? hp] at hfound
    obtain rfl : p = q := Option.some.inj hfound
    have hlength := congrArg List.length (ht.chain_cons hp)
    rw [ht.chain_child hr hparent, hdepth, Saturating.toNat_succ32, ih]
    simp only [List.length_cons] at hlength ⊢
    omega

end

/-! ## What the way up is -/

/-- The depth of a token was cut off: its parent was already as deep as a word can say. -/
def DepthCut (reg : Registry) (r : Token) : Prop :=
  ∃ p, r.parent.bind reg.find? = some p ∧ p.depth.toNat = UInt32.size - 1

/-- The way from a token up to its root, each followed by its parent. -/
structure Upward (reg : Registry) (r : Token) (chain : List TokenId) : Prop where
  head : chain.head? = some r.id
  linked : chain.IsChain fun child parent => (reg.find? child).bind (fun t => t.parent) = some parent
  last : ∃ root, chain.getLast?.bind reg.find? = some root ∧ root.parent = none
  nodup : chain.Nodup
  length : ¬ DepthCut reg r → chain.length = r.depth.toNat + 1

/-- **The way up ends at a root and passes no token twice.** -/
theorem Treelike.upward (ht : Treelike rank reg) :
    ∀ r ∈ reg.records, Upward reg r (reg.chain r.id) := by
  refine ht.induction ?_ ?_
  · intro r hr hroot
    have hdepth := ht.depth_eq r hr
    rw [ht.chain_root hr hroot] at hdepth ⊢
    refine ⟨rfl, List.isChain_singleton _, ⟨r, ht.find? hr, hroot⟩, List.nodup_singleton _, ?_⟩
    intro _
    rw [hdepth]
    rfl
  · intro r hr p hp hparent ih
    have hdepth := ht.depth_eq r hr
    have hchain := ht.chain_child hr hparent
    rw [hchain] at hdepth ⊢
    refine ⟨rfl, ?_, ?_, ?_, ?_⟩
    · refine List.isChain_cons.2 ⟨fun id hid => ?_, ih.linked⟩
      rw [ih.head] at hid
      obtain rfl : p.id = id := Option.some.inj hid
      rw [ht.find? hr]
      exact hparent
    · obtain ⟨root, hlast, hroot⟩ := ih.last
      refine ⟨root, ?_, hroot⟩
      rw [ht.chain_cons hp, List.getLast?_cons_cons, ← ht.chain_cons hp]
      exact hlast
    · rw [← hchain]
      exact ht.nodup_chain hr
    · intro hcut
      have hbelow : p.depth.toNat ≠ UInt32.size - 1 := fun he =>
        hcut ⟨p, by rw [hparent]; exact ht.find? hp, he⟩
      have hlength := congrArg List.length (ht.chain_cons hp)
      have := ht.depth_eq p hp
      simp only [List.length_cons] at hdepth hlength ⊢
      omega

/-! ## The loop -/

/-- One round of the way up: the token reached, and the identifiers passed before it. -/
def climb (reg : Registry) : Option Token × List TokenId → Option (Option Token × List TokenId)
  | (none, _) => none
  | (some t, passed) => some (t.parent.bind reg.find?, passed ++ [t.id])

/-- **The loop on the way up ends**, one round for each token that it passes. -/
theorem Treelike.stops_climb (ht : Treelike rank reg) (id : TokenId) :
    Stops (climb reg) (reg.chain id).length (reg.find? id, []) (none, reg.chain id) := by
  have hclimb : ∀ r ∈ reg.records, ∀ passed, Stops (climb reg) (reg.chain r.id).length
      (some r, passed) (none, passed ++ reg.chain r.id) := by
    refine ht.induction ?_ ?_
    · intro r hr hroot passed
      rw [ht.chain_root hr hroot]
      refine .round ?_ (.here rfl)
      rw [climb, hroot]
      rfl
    · intro r hr p hp hparent ih passed
      rw [ht.chain_child hr hparent, List.append_cons]
      refine .round ?_ (ih (passed ++ [r.id]))
      rw [climb, hparent, Option.bind_some, ht.find? hp]
  cases hf : reg.find? id with
  | none =>
    rw [chain_of_unregistered hf]
    exact .here rfl
  | some r =>
    obtain rfl : r.id = id := id_of_find? hf
    exact hclimb r (mem_records_of_find? hf) []

end Registry

end QubitWarden
