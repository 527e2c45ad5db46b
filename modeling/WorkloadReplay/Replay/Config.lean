import WorkloadReplay.Double.Basic
import WorkloadReplay.Fault
import WorkloadReplay.Path
import WorkloadReplay.Trace.Reader

/-!
# Settings of a replay

The settings of a replay, and the path of the trace, which stands beside the log. A log that has the
extension of a trace has no trace, since writing it would replace the log.

At a limited pace a call waits until as much time has passed since its transaction was started as
had passed in the log, divided by the speedup. Times are in nanoseconds.
-/

namespace WorkloadReplay

def traceExtension : String := "rply"

/-- The path of the trace of a log. -/
def tracePath (logPath : String) : Except Fault String :=
  if Path.extension? logPath = some traceExtension then
    .error (.invalidConfig (.traceExtension logPath traceExtension))
  else .ok (Path.withExtension logPath traceExtension)

/-- The settings of a replay: `limited` keeps the pace of the log, `speedup` times as fast. -/
structure Config where
  logPath : String
  speedup : Double
  limited : Bool
  workers : Nat
  capacity : Nat
  progress : Bool
  deriving DecidableEq

namespace Config

def default : Config := ⟨"", .one, true, 1, Trace.defaultCapacity, false⟩

def tracePath (c : Config) : Except Fault String := WorkloadReplay.tracePath c.logPath

/-- The first setting that cannot be used is a fault. -/
def validate (c : Config) : Except Fault Unit :=
  if c.logPath.isEmpty then .error (.invalidConfig .emptyLogPath)
  else if !c.speedup.isPositiveFinite then .error (.invalidConfig (.speedup c.speedup))
  else if c.workers = 0 then .error (.invalidConfig .noWorkers)
  else if c.capacity < Trace.minCapacity then
    .error (.invalidConfig (.smallBuffer Trace.minCapacity))
  else c.tracePath.map fun _ => ()

end Config

/-! ## The pace -/

structure Pacing where
  limited : Bool
  speedup : Double
  deriving DecidableEq

namespace Pacing

/-- A pace; a speedup that is not finite and above zero counts as one. -/
def make (limited : Bool) (speedup : Double) : Pacing :=
  ⟨limited, if speedup.isPositiveFinite then speedup else .one⟩

def ofConfig (c : Config) : Pacing := make c.limited c.speedup

/-- The time that passed in the log from `first` to `time`: none if it went back, and no more than a
word holds. -/
def elapsed (first time : Int64) : Nat :=
  min (time.toInt - first.toInt).toNat Int64.maxValue.toInt.toNat

/-- The time that passes in the replay from the start of a transaction to one of its calls. -/
def targetOffset (p : Pacing) (first time : Int64) : UInt64 :=
  let offset := (Double.rounded (elapsed first time)).quotient p.speedup
  UInt64.ofNat (offset.wholePart (UInt64.size - 1))

end Pacing

end WorkloadReplay
