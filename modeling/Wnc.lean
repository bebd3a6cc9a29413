import Wnc.Lib.Bytes
import Wnc.Lib.Run
import Wnc.Lib.SortedMap
import Wnc.Lib.Keyed
import Wnc.Core.Hash
import Wnc.Core.Error
import Wnc.Core.HashStream
import Wnc.Core.JsonDistinct
import Wnc.Core.JsonRoundTrip
import Wnc.Core.JsonAccepts
import Wnc.Ledger.FailedAppend
import Wnc.Ledger.Tampering
import Wnc.Ledger.Repair
import Wnc.Ledger.Owners
import Wnc.Contract.Compose
import Wnc.Runtime.Continuity
import Wnc.Runtime.Admission
import Wnc.Runtime.Counters
import Wnc.Runtime.Agreement
import Wnc.Contract.Canonical
import Wnc.Contract.Publishing
import Wnc.Evaluation.Information
import Wnc.Runtime.Conditional
import Wnc.Runtime.Lineage
import Wnc.Runtime.Unevidenced
import Wnc.Contract.Staging
import Wnc.Contract.Forest
import Wnc.Wire.Frame
import Wnc.Wire.Stream
import Wnc.Ledger.Accounting
import Wnc.Ledger.SnapshotRoundTrip
import Wnc.Ledger.AfterTruncation
import Wnc.Contract.Identity
import Wnc.Contract.RoundTrip
import Wnc.Evaluation.RoundTrip
import Wnc.Coordinator.Conversation
import Wnc.Coordinator.Service
import Wnc.Coordinator.Acknowledged
import Wnc.Coordinator.Turns
import Wnc.Runtime.Verify
import Wnc.Ledger.Epochs
import Wnc.Core.Padding
import Wnc.Core.Utf8
import Wnc.Core.Expansion
import Wnc.Ed25519.Signatures
import Wnc.Coordinator.Client
import Wnc.Core.Signing
import Wnc.Policy.Composition
