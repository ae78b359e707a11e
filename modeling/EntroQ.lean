import EntroQ.Eqmem.Snapshot
import EntroQ.Eqmem.Interleaving
import EntroQ.Eqmem.JournalOrder
import EntroQ.Eqmem.SetVersion
import EntroQ.Agreement.TaskVerdict
import EntroQ.Eqredis.DocNames
import EntroQ.Handoff.ExactlyOnce
import EntroQ.Async.ResponseStream
import EntroQ.Workgateway.Alternation
import EntroQ.Worker.FixVersions
import EntroQ.Worker.Releasing
import EntroQ.Worker.HandOver
import EntroQ.Worker.Retries
import EntroQ.Eqsvcgrpc.Integrity
import EntroQ.Authz.MeshRego
import EntroQ.Eqmr.Result
import EntroQ.Client.SourceQueue
import EntroQ.Eqpg.LockTime
import EntroQ.Agreement.DocIndex
import EntroQ.Queues.Namespacing
import EntroQ.Eqmem.DocCollection
import EntroQ.Eqredis.QueueFigures
import EntroQ.Eqgrpc.DependencyDetails
import EntroQ.Eqmr.RunsCutShort
import EntroQ.Eqmr.Shuffle
import EntroQ.Eqmr.ClaimCeiling
import EntroQ.Eqmr.Setup
import EntroQ.Eqmr.FileFormat
