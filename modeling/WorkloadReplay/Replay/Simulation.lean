import WorkloadReplay.Replay.Worker

/-!
# Running workers on a clock

A run lets the worker that is ready first make the next step, the one with the lowest number of
several. Time passes only when all workers wait. Each worker has an executor of its own, in a state
of its own.
-/

namespace WorkloadReplay

def Transaction.work (t : Transaction) : Nat := 3 * t.calls.length + 6

/-- A bound on the steps of a worker before it takes a transaction again. -/
def Worker.work : Worker → Nat
  | .idle => 2
  | .claiming => 1
  | .opening t => t.work
  | .playing _ p => 4 + p.work
  | .closing _ _ => 3
  | .ended => 0

namespace Crew

def work (c : Crew) : Nat :=
  c.queue.transactions.foldr (fun t steps => t.work + steps) 0 +
    c.workers.foldr (fun w steps => w.work + steps) 0

/-- The time from which on a worker can make its next step, unless it has ended. -/
def readyTime? (pacing : Pacing) (c : Crew) (now : Nat) (w : Worker) : Option Nat :=
  match w with
  | .ended => none
  | w => some (if c.stopped then now else max now ((w.wakeTime? pacing).getD now))

def nextReady? (pacing : Pacing) (c : Crew) (now : Nat) : Option (Nat × Nat) :=
  c.workers.zipIdx.foldl (fun best (w, index) =>
    match c.readyTime? pacing now w, best with
    | none, _ => best
    | some time, none => some (index, time)
    | some time, some (_, least) => if time < least then some (index, time) else best) none

end Crew

/-- A run of workers: the time, the time at which a stop is asked for, the states of the executors,
and the requests that were made, last first. -/
structure Simulation (σ : Type) where
  crew : Crew
  now : Nat
  stopAt : Option Nat
  states : List σ
  requests : List Request

namespace Simulation

variable {σ : Type}

def stepWorker (executor : Executor σ) (pacing : Pacing) (s : Simulation σ) (index time : Nat) :
    Simulation σ :=
  let s := { s with now := time }
  match (s.crew.workers[index]?).bind (·.request?), s.states[index]? with
  | some request, some state =>
    let (state, reaction) := executor state request
    { s with
      crew := s.crew.stepWorker pacing index time reaction
      states := s.states.set index state
      requests := request :: s.requests }
  | _, _ => { s with crew := s.crew.stepWorker pacing index time ⟨none, false⟩ }

/-- The next step of a run, unless all workers have ended: the sign to stop, if it is due before any
worker is ready, or the step of the worker that is ready first. -/
def step? (executor : Executor σ) (pacing : Pacing) (s : Simulation σ) : Option (Simulation σ) :=
  match s.crew.nextReady? pacing s.now with
  | none => none
  | some (index, time) =>
    match s.stopAt with
    | some stop =>
      if stop ≤ time then
        some { s with crew := s.crew.step pacing .stop, now := max s.now stop, stopAt := none }
      else some (s.stepWorker executor pacing index time)
    | none => some (s.stepWorker executor pacing index time)

def steps (executor : Executor σ) (pacing : Pacing) : Nat → Simulation σ → Simulation σ
  | 0, s => s
  | n + 1, s =>
    match s.step? executor pacing with
    | some s => steps executor pacing n s
    | none => s

end Simulation

structure CrewReport where
  tally : Tally
  requests : List Request
  queue : Queue
  stopped : Bool

/-- Runs so many workers on a queue until all have ended, from the time of a clock on. -/
def runWorkers {σ : Type} (executor : Executor σ) (initial : σ) (pacing : Pacing)
    (clock : StopClock) (workers : Nat) (q : Queue) : CrewReport :=
  let crew := Crew.start q workers clock.stopped
  let states := crew.workers.map fun _ => initial
  let s : Simulation σ := ⟨crew, clock.now, clock.stopAt, states, []⟩
  let s := s.steps executor pacing (crew.work + 1)
  ⟨s.crew.tally, s.requests.reverse, s.crew.queue, s.crew.stopped⟩

end WorkloadReplay
