/-
The durable state of a coordinator: workloads with their contract generations and evidence, the installed
policy, and the evidence floor.
-/
import Wnc.Evaluation.Evaluate
import Wnc.Ledger.Snapshot
import Wnc.Policy.Model

namespace Wnc

open Lib

def defaultEvidenceMaxAgeMillis : UInt64 := 30000
def maxRetainedGenerations : Nat := 4096

/-! ## Stored evaluations -/

structure StoredEvaluation where
  evaluation : ContractEvaluation := {}
  /-- False once a later contract, policy, evidence or incarnation invalidated the decision. -/
  valid : Bool := false
  invalidationReason : Bytes := []
deriving DecidableEq

/-- The decision no longer holds. -/
def StoredEvaluation.invalidate (reason : String) (e : StoredEvaluation) : StoredEvaluation :=
  { e with valid := false, invalidationReason := utf8 reason }

/-! ## State -/

structure GenerationRecord where
  generation : ContractGeneration := 0
  digest : Digest := .zero
  contractId : ContractId := .zero
  body : Contract := {}
  recordedAtMillis : UInt64 := 0
  superseded : Bool := false
  retired : Bool := false
deriving DecidableEq

structure WorkloadState where
  id : WorkloadId := .zero
  name : Bytes := []
  workloadGeneration : WorkloadGeneration := 0
  contractGeneration : ContractGeneration := 0
  digest : Digest := .zero
  contract : ContractId := .zero
  policyGeneration : PolicyGeneration := 0
  evidenceGeneration : EvidenceGeneration := 0
  retired : Bool := false
  generations : List GenerationRecord := []
  evidence : Option EvidenceSet := none
  evaluation : Option StoredEvaluation := none
deriving DecidableEq

structure RuntimeState where
  workloads : SortedMap WorkloadId WorkloadState := .empty
  policy : Option Policy := none
  policyDigest : Digest := .zero
  policyGeneration : PolicyGeneration := 0
  evidenceFloor : EvidenceGeneration := 0
deriving DecidableEq

structure RuntimeInfo where
  coordinator : CoordinatorId
  incarnation : Incarnation
  epoch : UInt64
  trustDigest : Digest
  startedAtMillis : UInt64
  recovered : Bool
  recoveredRecords : Nat
  truncatedBytes : Nat

/-- A runtime with its open ledger. -/
structure Runtime where
  info : RuntimeInfo
  state : RuntimeState := {}
  trust : TrustSet
  ledger : Ledger.Handle
  evidenceMaxAgeMillis : UInt64

/-- Whether a body declares a scope that some entry covers. -/
def coversScope (entries : List EvidenceEntry) (body : ContractBody) : Bool :=
  entries.any fun entry => body.scopes.any fun scope => scope.name == entry.scope

/-- The contract body of the current generation of a workload. -/
def WorkloadState.currentBody (w : WorkloadState) : Option ContractBody :=
  w.generations.getLast?.map fun g => g.body.body

end Wnc
