import JobsIroh.Proofs.Attempts
import JobsIroh.Proofs.Cycles
import JobsIroh.Proofs.Transfers
import JobsIroh.Proofs.GcFamily
import JobsIroh.Proofs.GcPins
import JobsIroh.Proofs.GcClock
import JobsIroh.Proofs.Exchange
import JobsIroh.Proofs.CoverClosure
import JobsIroh.Proofs.Push
import JobsIroh.Proofs.Retry
import JobsIroh.Proofs.Expiry
import JobsIroh.Proofs.Platforms
import JobsIroh.Proofs.Canonical
import JobsIroh.Proofs.Artifacts
import JobsIroh.Proofs.CoverMissing
import JobsIroh.Proofs.Rejected
import JobsIroh.Proofs.Extract
import JobsIroh.Proofs.Seed
import JobsIroh.Proofs.Admission
import JobsIroh.Proofs.Pool
import JobsIroh.Proofs.Mirror
import JobsIroh.Recipe.Sources
import JobsIroh.Sched.Logs
import JobsIroh.Builddef.Cache
import JobsIroh.Registryd.Stream
import JobsIroh.Runner.Collect
import JobsIroh.Events.OutputWriter
import JobsIroh.Runnerd.Sync
import JobsIroh.Clientcli.LiveView
import JobsIroh.Registryd.Tags
import JobsIroh.Amberiroh.PackStream
import JobsIroh.Recipe.Value
