import Outbox.Rehearsal
import Outbox.Delivery.Lanes
import Outbox.Delivery.Workers
import Outbox.Url.Collector
import Outbox.Uuid
import Outbox.Proofs.Restart
import Outbox.Proofs.OnLane
import Outbox.Proofs.Overlap
import Outbox.Proofs.Care
import Outbox.Proofs.Outcomes
import Outbox.Proofs.Snapshots
import Outbox.Proofs.Succession
import Outbox.Proofs.Threads
import Outbox.Proofs.Boundary
import Outbox.Proofs.Checkpoints
import Outbox.Proofs.FinalForms
import Outbox.Proofs.AnyOrder
import Outbox.Proofs.NoTrace
import Outbox.Proofs.Spellings
import Outbox.Proofs.Hints
import Outbox.Proofs.Tallies
import Outbox.Proofs.Reload
import Outbox.Proofs.Crashes
import Outbox.Proofs.Leftovers
import Outbox.Proofs.Recovery
import Outbox.Proofs.Numbering
import Outbox.Proofs.NoDeadlock
import Outbox.Proofs.Independence
import Outbox.Proofs.Grammar
import Outbox.Proofs.Cooldowns
import Outbox.Proofs.Returns
import Outbox.Proofs.Evictions
import Outbox.Proofs.Insertions
import Outbox.Proofs.QueueOrder
import Outbox.Proofs.SavedTogether
import Outbox.Proofs.MakingOrder
import Outbox.Proofs.PropertyStore
import Outbox.Proofs.Environment
import Outbox.Proofs.Tolerance
import Outbox.Proofs.LaneDiscipline
import Outbox.Proofs.WorkerPool
import Outbox.Proofs.Punctuality
import Outbox.Proofs.BasePath
import Outbox.Proofs.Retries
