import WorkloadReplay.Queue
import WorkloadReplay.Replay.Playback

/-!
# Workers

A worker takes transactions from the queue and plays them until the queue is empty or it sees the
sign to stop. An explicit transaction stands between a begin and either a commit or a rollback; if
its begin fails it is not played at all. A worker goes on in small steps, in each of which it looks
at the sign, takes from the queue or makes one request, so that the steps of several workers can
come in any order.
-/

namespace WorkloadReplay

/-- What became of a transaction. -/
inductive Verdict where
  | committed
  | aborted
  | failed
  | cancelled
  deriving DecidableEq

structure Tally where
  committed : Nat
  aborted : Nat
  failed : Nat
  cancelled : Nat
  deriving DecidableEq

namespace Tally

def zero : Tally := ⟨0, 0, 0, 0⟩

def count (t : Tally) : Verdict → Tally
  | .committed => { t with committed := t.committed + 1 }
  | .aborted => { t with aborted := t.aborted + 1 }
  | .failed => { t with failed := t.failed + 1 }
  | .cancelled => { t with cancelled := t.cancelled + 1 }

def total (t : Tally) : Nat := t.committed + t.aborted + t.failed + t.cancelled

@[simp] theorem total_count (t : Tally) (v : Verdict) : (t.count v).total = t.total + 1 := by
  cases v <;> simp only [count, total] <;> omega

end Tally

/-- What a worker does next: look at the sign to stop, take a transaction, open it, play it, close
it, or nothing. -/
inductive Worker where
  | idle
  | claiming
  | opening (t : Transaction)
  | playing (explicit : Bool) (p : Playback)
  | closing (commit : Bool) (verdict : Verdict)
  | ended

namespace Worker

def request? : Worker → Option Request
  | opening _ => some .begin
  | playing _ p => p.request?
  | closing commit _ => some (if commit then .commit else .rollback)
  | _ => none

def wakeTime? (pacing : Pacing) : Worker → Option Nat
  | playing _ p => p.wakeTime? pacing
  | _ => none

/-- What becomes of a transaction by what its playing came to. -/
def verdict : Except Fault Outcome → Verdict
  | .ok .committed => .committed
  | .ok .aborted => .aborted
  | .ok .cancelled => .cancelled
  | .error _ => .failed

/-- The worker after playing a transaction, and what became of it if that is settled. -/
def settle (explicit : Bool) (verdict : Verdict) : Worker × Option Verdict :=
  if explicit then (closing (verdict = .committed) verdict, none) else (idle, some verdict)

/-- One step at a time, with the sign to stop given or not, and the reason why its request failed,
if it did: the worker after it, the queue, and what became of a transaction if that is settled. A
commit that fails makes a failed transaction, a rollback that fails changes nothing. -/
def step (pacing : Pacing) (now : Nat) (stopped : Bool) (failure : Option String) (q : Queue)
    (w : Worker) : Worker × Queue × Option Verdict :=
  match w with
  | idle => (if stopped then ended else claiming, q, none)
  | claiming =>
    match q.pop with
    | (none, q) => (ended, q, none)
    | (some t, q) =>
      (if t.isExplicit then opening t else playing false (.start now t), q, none)
  | opening t =>
    match failure with
    | some _ => (idle, q, some .failed)
    | none => (playing true (.start now t), q, none)
  | playing explicit p =>
    let p := p.step pacing q.statements now stopped failure
    match p.result? with
    | some result => ((settle explicit (verdict result)).1, q, (settle explicit (verdict result)).2)
    | none => (playing explicit p, q, none)
  | closing commit verdict =>
    (idle, q, some (if commit && failure.isSome then .failed else verdict))
  | ended => (ended, q, none)

end Worker

/-- Workers on one queue: the queue, the sign to stop, and what became of the transactions. -/
structure Crew where
  queue : Queue
  stopped : Bool
  tally : Tally
  workers : List Worker

/-- A step of someone who has to do with a queue: of a worker, at a time and with what its request
comes to if it makes one; the giving of the sign to stop; or an operation of another client. -/
inductive Turn where
  | worker (index : Nat) (now : Nat) (reaction : Reaction)
  | stop
  | pop
  | popIf (condition : Transaction → Bool)
  | front
  | length

namespace Crew

/-- So many workers, and at least one, before their first step. -/
def start (q : Queue) (workers : Nat) (stopped : Bool) : Crew :=
  ⟨q, stopped, .zero, List.replicate (max workers 1) .idle⟩

def stepWorker (pacing : Pacing) (c : Crew) (index now : Nat) (reaction : Reaction) : Crew :=
  match c.workers[index]? with
  | none => c
  | some w =>
    let (w', queue, verdict) := w.step pacing now c.stopped reaction.failure c.queue
    { queue := queue
      stopped := c.stopped || (w.request?.isSome && reaction.stop)
      tally := match verdict with
        | some v => c.tally.count v
        | none => c.tally
      workers := c.workers.set index w' }

def step (pacing : Pacing) (c : Crew) : Turn → Crew
  | .worker index now reaction => c.stepWorker pacing index now reaction
  | .stop => { c with stopped := true }
  | .pop => { c with queue := c.queue.pop.2 }
  | .popIf condition => { c with queue := (c.queue.popIf condition).2 }
  | .front => c
  | .length => c

def run (pacing : Pacing) (c : Crew) (turns : List Turn) : Crew := turns.foldl (step pacing) c

end Crew

end WorkloadReplay
