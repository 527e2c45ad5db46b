import WorkloadReplay.Fault
import WorkloadReplay.Replay.Config
import WorkloadReplay.Transaction
import WorkloadReplay.Value.Basic

/-!
# Playing a transaction

An executor carries out the requests of a replay, one at a time, usually on one connection to a
database. A playback goes through the calls of a transaction in small steps. Each looks at the clock
and at the sign to stop, and one that makes a request also at what it came to; nothing else of the
world can change what a playback does. `Playback.run` plays on, letting time pass only in waiting.
-/

namespace WorkloadReplay

/-! ## Executors -/

inductive Request where
  | begin
  | execute (key : StatementKey) (sql : String) (params : List Value)
  | commit
  | rollback
  deriving DecidableEq

/-- What a request comes to: the reason of its failure, if it fails, and whether all of the replay
is to stop. -/
structure Reaction where
  failure : Option String
  stop : Bool
  deriving DecidableEq

/-- An executor, by what a request does in each of its states. -/
abbrev Executor (σ : Type) := σ → Request → σ × Reaction

/-! ## Playbacks -/

/-- What the playing of a transaction came to: it is to be committed or rolled back, or was stopped
before its end. -/
inductive Outcome where
  | committed
  | aborted
  | cancelled
  deriving DecidableEq

/-- What a playback does next: take the next call, wait for the time of a call, execute a statement,
or nothing. -/
inductive PlaybackPhase where
  | next
  | waiting (call : Call)
  | issuing (key : StatementKey) (sql : String) (params : List Value)
  | ended (result : Except Fault Outcome)

/-- The playing of a transaction that was started at a time: the calls that remain, and how many
statements have been executed. -/
structure Playback where
  started : Nat
  remaining : Transaction
  executed : Nat
  phase : PlaybackPhase

namespace Playback

def start (now : Nat) (t : Transaction) : Playback := ⟨now, t, 0, .next⟩

def request? (p : Playback) : Option Request :=
  match p.phase with
  | .issuing key sql params => some (.execute key sql params)
  | _ => none

def target (pacing : Pacing) (p : Playback) (call : Call) : Nat :=
  p.started + (pacing.targetOffset p.remaining.firstTime call.time).toNat

def wakeTime? (pacing : Pacing) (p : Playback) : Option Nat :=
  match p.phase with
  | .waiting call => some (p.target pacing call)
  | _ => none

/-- The playback at the time of a call. The end of a transaction asks for nothing. -/
def arrive (table : StatementTable) (p : Playback) (call : Call) : Playback :=
  match call.target with
  | .end => { p with phase := .next }
  | .statement key =>
    match table.resolve key with
    | some sql => { p with phase := .issuing key sql call.params }
    | none => { p with phase := .ended (.error (.unresolvedStatement key.number)) }

/-- What a transaction without a call left came to. -/
def conclusion (t : Transaction) : Except Fault Outcome :=
  t.shouldAbort.map fun abort => if abort then .aborted else .committed

/-- One step at a time, with the sign to stop given or not, and the reason why its request failed,
if it did. -/
def step (pacing : Pacing) (table : StatementTable) (now : Nat) (stopped : Bool)
    (failure : Option String) (p : Playback) : Playback :=
  match p.phase with
  | .next =>
    match p.remaining.pop with
    | (none, _) => { p with phase := .ended (conclusion p.remaining) }
    | (some call, rest) =>
      if stopped then { p with remaining := rest, phase := .ended (.ok .cancelled) }
      else if pacing.limited then { p with remaining := rest, phase := .waiting call }
      else { p with remaining := rest }.arrive table call
  | .waiting call =>
    if stopped then { p with phase := .ended (.ok .cancelled) }
    else if now < p.target pacing call then p
    else p.arrive table call
  | .issuing _ _ _ =>
    match failure with
    | some reason => { p with phase := .ended (.error (.execution p.executed reason)) }
    | none => { p with executed := p.executed + 1, phase := .next }
  | .ended _ => p

/-- A bound on the steps of a playback that does not wait. -/
def work (p : Playback) : Nat :=
  match p.phase with
  | .next => 3 * p.remaining.calls.length + 1
  | .waiting _ => 3 * p.remaining.calls.length + 3
  | .issuing _ _ _ => 3 * p.remaining.calls.length + 2
  | .ended _ => 0

def result? (p : Playback) : Option (Except Fault Outcome) :=
  match p.phase with
  | .ended result => some result
  | _ => none

theorem work_arrive_le (table : StatementTable) (p : Playback) (call : Call) :
    (p.arrive table call).work ≤ 3 * p.remaining.calls.length + 2 := by
  unfold arrive
  split
  · simp [work]
  · split <;> simp [work]

theorem work_step_lt {pacing : Pacing} {table : StatementTable} {now : Nat} {stopped : Bool}
    {failure : Option String} {p : Playback} (hp : p.result? = none)
    (hw : stopped = true ∨ ∀ t ∈ p.wakeTime? pacing, t ≤ now) :
    (p.step pacing table now stopped failure).work < p.work := by
  obtain ⟨started, remaining, executed, phase⟩ := p
  cases phase with
  | next =>
    cases hc : remaining.calls with
    | nil => simp [step, Transaction.pop, hc, work]
    | cons call rest =>
      simp only [step, Transaction.pop, hc, List.head?_cons, List.tail_cons]
      split
      · simp [work]
      · split
        · simp [work, hc]
          omega
        · have := work_arrive_le table
            ⟨started, { remaining with calls := rest }, executed, .next⟩ call
          simp only [work, hc, List.length_cons] at this ⊢
          omega
  | waiting call =>
    simp only [step]
    split
    · simp [work]
    · rename_i hs
      have ht : ¬ now < target pacing ⟨started, remaining, executed, .waiting call⟩ call := by
        rcases hw with h | h
        · exact absurd h hs
        · exact Nat.not_lt.mpr (h _ rfl)
      rw [if_neg ht]
      have := work_arrive_le table ⟨started, remaining, executed, .waiting call⟩ call
      simp only [work] at this ⊢
      omega
  | issuing key sql params =>
    simp only [step]
    split <;> simp [work]
  | ended result => simp [result?] at hp

end Playback

structure StopClock where
  now : Nat
  stopped : Bool
  stopAt : Option Nat

namespace StopClock

def isStopped (c : StopClock) : Bool := c.stopped || c.stopAt.any (· ≤ c.now)

def reach (c : StopClock) (time : Nat) : StopClock :=
  if c.isStopped then c else { c with now := max c.now (min time (c.stopAt.getD time)) }

theorem isStopped_reach_or (c : StopClock) (time : Nat) :
    (c.reach time).isStopped = true ∨ time ≤ (c.reach time).now := by
  unfold reach
  split
  · exact Or.inl (by assumption)
  · cases h : c.stopAt with
    | none =>
      right
      simp only [Option.getD_none]
      omega
    | some a =>
      by_cases ha : a ≤ time
      · left
        simp only [isStopped, Option.getD_some, Option.any_some, Bool.or_eq_true,
          decide_eq_true_eq]
        omega
      · right
        simp only [Option.getD_some]
        omega

/-- The clock when the next step of a playback can be made. -/
def awaitStep (pacing : Pacing) (c : StopClock) (p : Playback) : StopClock :=
  match p.wakeTime? pacing with
  | some time => c.reach time
  | none => c

theorem isStopped_awaitStep_or (pacing : Pacing) (c : StopClock) (p : Playback) :
    (c.awaitStep pacing p).isStopped = true ∨
      ∀ t ∈ p.wakeTime? pacing, t ≤ (c.awaitStep pacing p).now := by
  unfold awaitStep
  split
  · rename_i time ht
    rcases isStopped_reach_or c time with h | h
    · exact Or.inl h
    · right
      intro t hm
      rw [ht] at hm
      cases hm
      exact h
  · rename_i ht
    right
    simp [ht]

end StopClock

structure Played (σ : Type) where
  result : Except Fault Outcome
  requests : List Request
  clock : StopClock
  state : σ

/-- Plays on after the requests `made` (last first). -/
def Playback.run {σ : Type} (executor : Executor σ) (pacing : Pacing) (table : StatementTable)
    (clock : StopClock) (state : σ) (made : List Request) (p : Playback) : Played σ :=
  match _h : p.result? with
  | some result => ⟨result, made.reverse, clock, state⟩
  | none =>
    match p.request? with
    | none =>
      run executor pacing table (clock.awaitStep pacing p) state made
        (p.step pacing table (clock.awaitStep pacing p).now (clock.awaitStep pacing p).isStopped
          none)
    | some request =>
      run executor pacing table
        { clock.awaitStep pacing p with
          stopped := (clock.awaitStep pacing p).stopped || (executor state request).2.stop }
        (executor state request).1 (request :: made)
        (p.step pacing table (clock.awaitStep pacing p).now (clock.awaitStep pacing p).isStopped
          (executor state request).2.failure)
termination_by p.work
decreasing_by
  · exact Playback.work_step_lt _h (clock.isStopped_awaitStep_or pacing p)
  · exact Playback.work_step_lt _h (clock.isStopped_awaitStep_or pacing p)

/-- Plays a transaction from the time of a clock on. -/
def replay {σ : Type} (executor : Executor σ) (pacing : Pacing) (table : StatementTable)
    (clock : StopClock) (state : σ) (t : Transaction) : Played σ :=
  Playback.run executor pacing table clock state [] (.start clock.now t)

end WorkloadReplay
