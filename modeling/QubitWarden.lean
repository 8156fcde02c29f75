import QubitWarden.Audit.Json
import QubitWarden.Audit.Query
import QubitWarden.Config.Environment
import QubitWarden.Config.File
import QubitWarden.Config.Json
import QubitWarden.Json.Printer
import QubitWarden.Kernel.Basic
import QubitWarden.Kernel.Report
import QubitWarden.Mediation.Scripted
import QubitWarden.Merkle.Json
import QubitWarden.Metrics.Exposition
import QubitWarden.Token.Fields
import QubitWarden.Token.Json
import QubitWarden.Proofs.Kernel.Authorization
import QubitWarden.Proofs.Merkle.Binding
import QubitWarden.Proofs.Audit.Commitment
import QubitWarden.Proofs.Audit.Tampering
import QubitWarden.Proofs.Qubit.Run
import QubitWarden.Proofs.Qubit.History
import QubitWarden.Proofs.Qubit.Allocator
import QubitWarden.Proofs.Qubit.Purge
import QubitWarden.Proofs.Qubit.Ownership
import QubitWarden.Proofs.Audit.AllocationTrail
import QubitWarden.Proofs.Registry.Permanence
import QubitWarden.Proofs.Registry.Collection
import QubitWarden.Proofs.Mediation.Completeness
import QubitWarden.Proofs.Registry.Denial
import QubitWarden.Proofs.Mediation.Trail
import QubitWarden.Proofs.Kernel.Accounting
import QubitWarden.Proofs.Qubit.Refusal
import QubitWarden.Proofs.Kernel.Metrics
import QubitWarden.Proofs.Qubit.Isolation
import QubitWarden.Proofs.Registry.Delegation
import QubitWarden.Proofs.Registry.Descendants
import QubitWarden.Proofs.Registry.Statistics
import QubitWarden.Proofs.Audit.Query
import QubitWarden.Proofs.Registry.Immutability
import QubitWarden.Proofs.Token.Transport
import QubitWarden.Proofs.Merkle.Completeness
import QubitWarden.Proofs.Qubit.Release
import QubitWarden.Proofs.Qubit.Journal
import QubitWarden.Proofs.Config.Environment
import QubitWarden.Proofs.Capability.Joined
