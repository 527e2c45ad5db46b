import WorkloadReplay.Replay.Config
import WorkloadReplay.Conversion
import WorkloadReplay.Trace.Loading

/-!
# Managing a trace

A manager loads the queue of a replay once. It converts the log first if there is no trace or the
log is newer, and else uses the trace that is there, even without a log. Nothing can be taken from
its queue before.
-/

namespace WorkloadReplay

inductive TracePlan where
  | convert
  | reuse
  deriving DecidableEq

/-- Whether to convert the log at a path, or to use the trace at another. -/
def planTrace (fs : FileSystem) (logPath tracePath : String) : Except Fault TracePlan := do
  match ← fs.modified? logPath, ← fs.modified? tracePath with
  | none, none => throw (.missingInputs logPath tracePath)
  | none, some _ => return .reuse
  | some _, none => return .convert
  | some log, some trace => return if trace < log then .convert else .reuse

def loadPath (fs : FileSystem) (path : String) (capacity : Nat) : Except Fault Queue := do
  Trace.load [.bytes (← fs.readExisting path)] capacity

/-- A manager, with its queue once it is loaded. -/
structure Manager where
  config : Config
  tracePath : String
  queue : Option Queue

namespace Manager

def ofConfig (config : Config) : Except Fault Manager := do
  config.validate
  return ⟨config, ← config.tracePath, none⟩

def isLoaded (m : Manager) : Bool := m.queue.isSome

def prepare (m : Manager) (fs : FileSystem) : FileSystem × Except Fault Unit :=
  match planTrace fs m.config.logPath m.tracePath with
  | .error fault => (fs, .error fault)
  | .ok .reuse => (fs, .ok ())
  | .ok .convert =>
    match Conversion.convert fs m.config.logPath m.tracePath with
    | (fs, .error fault) => (fs, .error fault)
    | (fs, .ok _) => (fs, .ok ())

/-- Loads the queue, which can be done once. -/
def load (m : Manager) (fs : FileSystem) : FileSystem × Except Fault (Manager × Queue) :=
  if m.isLoaded then (fs, .error .alreadyLoaded)
  else
    match m.prepare fs with
    | (fs, .error fault) => (fs, .error fault)
    | (fs, .ok ()) =>
      match loadPath fs m.tracePath m.config.capacity with
      | .error fault => (fs, .error fault)
      | .ok queue => (fs, .ok ({ m with queue := some queue }, queue))

def loaded (m : Manager) : Except Fault Queue :=
  match m.queue with
  | some queue => .ok queue
  | none => .error .notLoaded

def peek (m : Manager) : Except Fault (Option Transaction) := m.loaded.map (·.front?)

def pop (m : Manager) : Except Fault (Option Transaction × Manager) :=
  m.loaded.map fun queue => (queue.pop.1, { m with queue := some queue.pop.2 })

def statements (m : Manager) : Except Fault StatementTable := m.loaded.map (·.statements)

end Manager

end WorkloadReplay
