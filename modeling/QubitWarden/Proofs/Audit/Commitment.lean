import QubitWarden.Proofs.Audit.Encoding
import QubitWarden.Proofs.Merkle.Binding

/-!
# The root of a log commits to its history

Completing an odd level with its last node makes a tree share its root with a longer one that ends in
the same record twice. No log ends so: a record says at which position it stands.

* `position_of_bytesOf`: the bytes of a record tell its sequence number, hence its position.
* `length_le_of_root_eq`: so no log with the same root is longer.
* `root_commits`: logs with one root have the same bytes, and every append changes the root.
-/

namespace QubitWarden.Audit

open Merkle

/-! ## Positions -/

/-- In a history that sequence numbers can tell apart, equal bytes stand at equal positions. -/
theorem position_of_bytesOf {first second : EventHistory} {i j : Nat} {bytes : Bytes}
    (hfirst : first.length ≤ UInt64.size) (hsecond : second.length ≤ UInt64.size)
    (hi : (bytesOf first)[i]? = some bytes) (hj : (bytesOf second)[j]? = some bytes) : i = j := by
  have hsequence {events : EventHistory} {k : Nat} (hk : (bytesOf events)[k]? = some bytes) :
      ∃ r : Record, r.toBytes = bytes ∧ r.sequence = UInt64.ofNat k := by
    rw [bytesOf, recordsOf, List.getElem?_map, List.getElem?_mapIdx, Option.map_map] at hk
    obtain ⟨e, -, he⟩ := Option.map_eq_some_iff.1 hk
    exact ⟨.ofEvent k e, he, rfl⟩
  obtain ⟨r, hr, hri⟩ := hsequence hi
  obtain ⟨s, hs, hsj⟩ := hsequence hj
  have hlt := (List.getElem?_eq_some_iff.1 hi).1
  have hlt' := (List.getElem?_eq_some_iff.1 hj).1
  rw [length_bytesOf] at hlt hlt'
  have heq : r.sequence.toNat = s.sequence.toNat := by rw [Record.toBytes_inj (hr.trans hs.symm)]
  rw [hri, hsj, UInt64.toNat_ofNat_of_lt' (Nat.lt_of_lt_of_le hlt hfirst),
    UInt64.toNat_ofNat_of_lt' (Nat.lt_of_lt_of_le hlt' hsecond)] at heq
  exact heq

/-! ## Roots of logs -/

section
variable {H : Hash} {padding : Padding} {first second : EventHistory}
  (hfirst : first.length ≤ UInt64.size) (hsecond : second.length ≤ UInt64.size)
  (hroot : (Accumulator.ofRecords H padding (bytesOf first)).root =
    (Accumulator.ofRecords H padding (bytesOf second)).root)
include hfirst hsecond hroot

theorem length_le_of_root_eq (hsep : Separating H
    (treeBytes H padding (bytesOf first) ++ treeBytes H padding (bytesOf second))) :
    second.length ≤ first.length := by
  refine Nat.le_of_not_lt fun hlt => ?_
  -- The record right after the end of `first` would stand in it, at the position it says.
  obtain ⟨bytes, hbytes⟩ : ∃ bytes, (bytesOf second)[first.length]? = some bytes :=
    ⟨_, List.getElem?_eq_getElem (by rwa [length_bytesOf])⟩
  obtain ⟨i, hi, -⟩ := getElem?_of_root_eq hsep hroot hbytes
  have hlen := (List.getElem?_eq_some_iff.1 hi).1
  rw [position_of_bytesOf hfirst hsecond hi hbytes, length_bytesOf] at hlen
  exact Nat.lt_irrefl _ hlen

theorem bytesOf_eq_of_root_eq (hsep : Separating H
    (treeBytes H padding (bytesOf first) ++ treeBytes H padding (bytesOf second))) :
    bytesOf first = bytesOf second := by
  have hlen : first.length = second.length := Nat.le_antisymm
    (length_le_of_root_eq hsecond hfirst hroot.symm hsep.swap)
    (length_le_of_root_eq hfirst hsecond hroot hsep)
  exact eq_of_root_eq hsep hroot (by simpa using hlen)

end

namespace Log

/-- The bytes hashed for the nodes that the tree of a log holds. -/
def hashed (H : Hash) (log : Log) : List Bytes := treeBytes H log.padding log.bytes

theorem hashed_ofEvents (H : Hash) (padding : Padding) (events : EventHistory) :
    (ofEvents H padding events).hashed H = treeBytes H padding (bytesOf events) := by
  rw [hashed, Log.padding, tree_ofEvents, padding_ofRecords, bytes_ofEvents]

theorem root_ofEvents (H : Hash) (padding : Padding) (events : EventHistory) :
    (ofEvents H padding events).root =
      (Accumulator.ofRecords H padding (bytesOf events)).root := by
  rw [Log.root, tree_ofEvents, bytes_ofEvents]

theorem entries_of_root_eq {H : Hash} {padding : Padding} {first second : EventHistory}
    (hfirst : (ofEvents H padding first).size ≤ UInt64.size)
    (hsecond : (ofEvents H padding second).size ≤ UInt64.size)
    (hsep : Separating H
      ((ofEvents H padding first).hashed H ++ (ofEvents H padding second).hashed H))
    (hroot : (ofEvents H padding first).root = (ofEvents H padding second).root) :
    (ofEvents H padding first).size = (ofEvents H padding second).size ∧
      ∀ i, ((ofEvents H padding first).entry i).map Entry.bytes =
        ((ofEvents H padding second).entry i).map Entry.bytes := by
  rw [size_ofEvents] at hfirst hsecond
  rw [hashed_ofEvents, hashed_ofEvents] at hsep
  rw [root_ofEvents, root_ofEvents] at hroot
  have hbytes : (ofEvents H padding first).bytes = (ofEvents H padding second).bytes := by
    rw [bytes_ofEvents, bytes_ofEvents, bytesOf_eq_of_root_eq hfirst hsecond hroot hsep]
  refine ⟨by rw [← length_bytes, ← length_bytes, hbytes], fun i => ?_⟩
  rw [map_bytes_entry, map_bytes_entry, hbytes]

theorem root_append_ne {H : Hash} {padding : Padding} {events : EventHistory} {now : Timestamp}
    {event : Event}
    (hfit : ((ofEvents H padding events).append H now event).size ≤ UInt64.size)
    (hsep : Separating H ((ofEvents H padding events).hashed H ++
      ((ofEvents H padding events).append H now event).hashed H)) :
    ((ofEvents H padding events).append H now event).root ≠ (ofEvents H padding events).root := by
  rw [← ofEvents_concat] at hfit hsep ⊢
  rw [size_ofEvents] at hfit
  rw [hashed_ofEvents, hashed_ofEvents] at hsep
  rw [root_ofEvents, root_ofEvents]
  intro hroot
  have hle := length_le_of_root_eq (Nat.le_trans (by simp) hfit) hfit hroot.symm hsep
  rw [List.length_append, List.length_singleton] at hle
  exact Nat.not_succ_le_self _ hle

/-- **The root of a log commits to its whole history**, however odd levels are completed. Two logs
with one root have as many entries and the same bytes at every position; an append changes the root.
A log holds no more entries than there are sequence numbers, and the hash has no collision on what
is hashed for the two trees. -/
theorem root_commits (H : Hash) (padding : Padding) :
    (∀ first second : EventHistory,
      let a := ofEvents H padding first
      let b := ofEvents H padding second
      a.size ≤ UInt64.size → b.size ≤ UInt64.size → Separating H (a.hashed H ++ b.hashed H) →
        a.root = b.root →
          a.size = b.size ∧ ∀ i, (a.entry i).map Entry.bytes = (b.entry i).map Entry.bytes) ∧
      ∀ (events : EventHistory) (now : Timestamp) (event : Event),
        let a := ofEvents H padding events
        let b := a.append H now event
        b.size ≤ UInt64.size → Separating H (a.hashed H ++ b.hashed H) → b.root ≠ a.root := by
  constructor
  · intro first second a b hfirst hsecond hsep hroot
    exact entries_of_root_eq hfirst hsecond hsep hroot
  · intro events now event a b hfit hsep
    exact root_append_ne hfit hsep

/-- The same event three times. -/
def repeatedEvents : EventHistory := .replicate 3 (100, ⟨.tokenIssued, none, .empty⟩)

-- The third record completes its level with itself, yet the same event once more changes the root.
theorem root_commits_repeated :
    let a := ofEvents sha256 .duplicateLast repeatedEvents
    let b := a.append sha256 100 ⟨.tokenIssued, none, .empty⟩
    b.size ≤ UInt64.size ∧ Separating sha256 (a.hashed sha256 ++ b.hashed sha256) ∧
      b.root ≠ a.root ∧ ∀ i, (a.entry i).map Entry.bytes = (a.entry i).map Entry.bytes := by
  intro a b
  obtain ⟨hfit, hsep⟩ : b.size ≤ UInt64.size ∧
      Separating sha256 (a.hashed sha256 ++ b.hashed sha256) := by
    decide +kernel
  have hself : Separating sha256 (a.hashed sha256 ++ a.hashed sha256) :=
    hsep.subset fun x hx => List.mem_append_left _ (by simpa using hx)
  have hsize : a.size ≤ UInt64.size := by decide +kernel
  obtain ⟨hcommits, hchanges⟩ := root_commits sha256 .duplicateLast
  exact ⟨hfit, hsep, hchanges repeatedEvents 100 ⟨.tokenIssued, none, .empty⟩ hfit hsep,
    (hcommits repeatedEvents repeatedEvents hsize hsize hself rfl).2⟩

end Log

end QubitWarden.Audit
