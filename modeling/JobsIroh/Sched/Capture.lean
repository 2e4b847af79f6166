/-
Captured output and failure records (`sched/logfold.go`, `sched/diagnose.go`, `api/api.go`).

A buffer keeps the beginning and the end of one attempt's output.  A failure record takes a
part of it, and a report to the client a part of that.
-/
import JobsIroh.Wire

namespace JobsIroh.Api

/-! ### Payloads -/

structure LogChunk where
  gen : UInt64
  stream : String
  seq : UInt64
  data : Bytes

structure Rusage where
  wallNs : Int64 := 0
  cpuNs : Int64 := 0
  maxRSS : Int64 := 0
  stored : Int64 := 0
  deduped : Int64 := 0

/-- A runner's report as it was sent, with what the scheduler does not look at. -/
structure Report extends Result where
  rusage : Rusage := {}
  readRefs : List String := []

/-- One failed or retried attempt, as it is kept. -/
structure FailureRecord where
  node : String
  gen : UInt64
  platform : String := ""
  label : String := ""
  origin : String
  disposition : String
  errSummary : String
  consecRetry : Int64 := 0
  consecCtrl : Int64 := 0
  backoffMs : Int64 := 0
  requestIds : List String := []
  forF : List String := []
  result : Option Report := none
  enqueuedNs : Int64 := 0
  startedNs : Int64 := 0
  failedNs : Int64 := 0
  logHead : Bytes := []
  logGap : Int64 := 0
  logTail : Bytes := []
  logMissing : Bool := false

/-- A record rendered for the client, and whether its log was cut. -/
structure AttemptReport extends FailureRecord where
  logTruncated : Bool := false

end JobsIroh.Api

namespace JobsIroh

open Api

/-! ### Captured output -/

def logHeadCap : Nat := 1024 * 1024
def logTailCap : Nat := 3 * 1024 * 1024

/-- A bounded head and tail of one attempt's output. -/
structure LogBuffer (headCap tailCap : Nat) where
  head : Bytes := []
  tail : Bytes := []
  gap : Nat := 0
  seen : List (String × UInt64) := []
  head_le : head.length ≤ headCap
  tail_le : tail.length ≤ tailCap

def newLogBuffer (headCap tailCap : Nat) : LogBuffer headCap tailCap where
  head_le := by simp
  tail_le := by simp

variable {headCap tailCap : Nat}

/-- The head fills first, then the last bytes of the tail win. -/
def LogBuffer.write (b : LogBuffer headCap tailCap) (stream : String) (seq : UInt64)
    (chunk : Bytes) : LogBuffer headCap tailCap :=
  if (stream, seq) ∈ b.seen then b
  else
    let take := headCap - b.head.length
    let tail := b.tail ++ chunk.drop take
    let excess := tail.length - tailCap
    { head := b.head ++ chunk.take take
      tail := tail.drop excess
      gap := b.gap + excess
      seen := (stream, seq) :: b.seen
      head_le := by
        have := b.head_le
        rw [List.length_append, List.length_take]
        omega
      tail_le := by
        rw [List.length_drop]
        omega }

structure NodeLog where
  gen : Nat
  buf : LogBuffer logHeadCap logTailCap

/-- What of a buffer goes into a failure record. -/
def trimLogSnapshot (b : LogBuffer headCap tailCap) (headMax tailMax : Nat) :
    Bytes × Nat × Bytes :=
  (b.head.take headMax, b.gap + (b.head.length - headMax) + (b.tail.length - tailMax),
    b.tail.drop (b.tail.length - tailMax))

/-- The log budget of an attempt, the tail first. -/
def trimAttempt (rec : FailureRecord) (maxLogBytes : Int64) : AttemptReport :=
  let budget := maxLogBytes.toInt.toNat
  if maxLogBytes ≤ 0 ∨ rec.logHead.length + rec.logTail.length ≤ budget then
    { rec with logTruncated := false }
  else
    let cut := rec.logTail.length - budget
    let tail := rec.logTail.drop cut
    let head := rec.logHead.take (budget - tail.length)
    { rec with
      logHead := head
      logGap := rec.logGap + Int64.ofNat cut + Int64.ofNat (rec.logHead.length - head.length)
      logTail := tail
      logTruncated := true }

end JobsIroh
