import QubitWarden.Decimal.Shortest
import QubitWarden.Metrics.Basic

/-!
# The text of the metrics

Each family has a help line, a type line and its samples. Families stand in the order of their
names, labelled samples in the order of their label values; a labelled family without samples is
left out.

* `Metrics.families`: the families with samples.
* `Metrics.exposition`: the whole text.
-/

namespace QubitWarden

/-- The values of a family. -/
inductive Samples where
  | single (value : Nat)
  | labelled (label : String) (values : Tally String)

/-- A metric with all its values. -/
structure MetricFamily where
  name : String
  help : String
  isCounter : Bool
  samples : Samples

namespace MetricFamily

/-- A label value with the backslash, the quote and the line end escaped. -/
def escapeLabel (s : String) : String :=
  String.ofList (s.toList.flatMap fun c =>
    if c = '\\' then ['\\', '\\']
    else if c = '"' then ['\\', '"']
    else if c = '\n' then ['\\', 'n']
    else [c])

/-- The counts with one more entry in the order of the labels. -/
def insertSample (entry : String × Nat) : List (String × Nat) → List (String × Nat)
  | [] => [entry]
  | other :: rest =>
    if entry.1 < other.1 then entry :: other :: rest else other :: insertSample entry rest

/-- The counts in the order of the labels. -/
def sortedSamples (counts : List (String × Nat)) : List (String × Nat) :=
  counts.foldr insertSample []

def valueText (n : Nat) : String := toString (Decimal.shortest n)

/-- The line of one labelled sample. -/
def labelledLine (name label value : String) (n : Nat) : String :=
  name ++ "\x7b" ++ label ++ "=\"" ++ escapeLabel value ++ "\"\x7d " ++ valueText n ++ "\n"

def sampleLines (f : MetricFamily) : List String :=
  match f.samples with
  | .single n => [f.name ++ " " ++ valueText n ++ "\n"]
  | .labelled label values =>
    (sortedSamples values.counts).map fun (value, n) => labelledLine f.name label value n

/-- Whether the family has a sample. -/
def hasSamples (f : MetricFamily) : Bool :=
  match f.samples with
  | .single _ => true
  | .labelled _ values => !values.counts.isEmpty

def lines (f : MetricFamily) : List String :=
  let kind := if f.isCounter then "counter" else "gauge"
  ["# HELP " ++ f.name ++ " " ++ f.help ++ "\n", "# TYPE " ++ f.name ++ " " ++ kind ++ "\n"] ++
    f.sampleLines

end MetricFamily

namespace Metrics

/-- Every family in the order of the names. -/
def allFamilies (m : Metrics) : List MetricFamily := [
  ⟨"qk_allocation_failures_total", "Refused allocations by kind", true,
    .labelled "kind" m.failures⟩,
  ⟨"qk_audit_entries", "Entries in the audit log", false, .single m.auditEntries⟩,
  ⟨"qk_capability_checks_total", "Capability checks by outcome", true,
    .labelled "outcome" m.checks⟩,
  ⟨"qk_capability_denials_total", "Capability denials by reason", true,
    .labelled "reason" m.denials⟩,
  ⟨"qk_qubits_allocated", "Qubits owned by a tenant", false, .single m.qubitsAllocated⟩,
  ⟨"qk_qubits_free", "Qubits available for allocation", false, .single m.qubitsFree⟩,
  ⟨"qk_tokens_issued_total", "Capability tokens issued, including attenuated children", true,
    .single m.tokensIssued⟩,
  ⟨"qk_tokens_revoked_total", "Capability tokens revoked", true, .single m.tokensRevoked⟩]

/-- The families with samples. -/
def families (m : Metrics) : List MetricFamily := m.allFamilies.filter MetricFamily.hasSamples

def exposition (m : Metrics) : String := "".intercalate (m.families.flatMap MetricFamily.lines)

end Metrics

end QubitWarden
