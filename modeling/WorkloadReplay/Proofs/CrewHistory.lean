import WorkloadReplay.Replay.Worker
import Mathlib.Data.List.Basic

/-!
# Histories of crews

What is done about the transactions of a queue, in the order of the turns: someone takes one, the
worker that plays it looks at the sign to stop or makes a request, and what became of it is counted.
The turns are those of the workers and of any number of other clients, in any order.
-/

namespace WorkloadReplay

/-- Someone who takes transactions from a queue: a worker or another client. -/
inductive Party where
  | worker (index : Nat)
  | client (number : Nat)
  deriving DecidableEq

def Party.isWorker : Party → Bool
  | worker _ => true
  | client _ => false

/-- What is done in playing a transaction: a look at the sign to stop, or a request, with the reason
of its failure if it fails. -/
inductive Act where
  | look (stopped : Bool)
  | request (request : Request) (failure : Option String)
  deriving DecidableEq

/-- What is done about a transaction. -/
inductive Deed where
  | take (t : Transaction)
  | act (act : Act)
  | count (verdict : Verdict)
  deriving DecidableEq

namespace Deed

def taken? : Deed → Option Transaction
  | take t => some t
  | _ => none

def verdict? : Deed → Option Verdict
  | count verdict => some verdict
  | _ => none

end Deed

/-- A turn, with the number of the client who makes it unless a worker does. -/
structure Move where
  client : Nat
  turn : Turn

def Move.party (m : Move) : Party :=
  match m.turn with
  | .worker index _ _ => .worker index
  | _ => .client m.client

namespace Playback

/-- The next step looks at the sign to stop. -/
def looks (p : Playback) : Bool :=
  match p.phase with
  | .next => !p.remaining.calls.isEmpty
  | .waiting _ => true
  | _ => false

def acts (stopped : Bool) (failure : Option String) (p : Playback) : List Act :=
  (if p.looks then [.look stopped] else []) ++
    p.request?.toList.map fun request => .request request failure

end Playback

namespace Worker

def taken? (q : Queue) : Worker → Option Transaction
  | claiming => q.pop.1
  | _ => none

def acts (stopped : Bool) (failure : Option String) : Worker → List Act
  | playing _ p => p.acts stopped failure
  | w => w.request?.toList.map fun request => .request request failure

def deeds (pacing : Pacing) (now : Nat) (stopped : Bool) (failure : Option String) (q : Queue)
    (w : Worker) : List Deed :=
  (w.taken? q).toList.map .take ++ (w.acts stopped failure).map .act ++
    (w.step pacing now stopped failure q).2.2.toList.map .count

end Worker

def deedsOf (party : Party) (history : List (Party × Deed)) : List Deed :=
  (history.filter fun entry => entry.1 = party).map (·.2)

/-- The transactions that are handed out, each with its taker, in order. -/
def handedOut (history : List (Party × Deed)) : List (Party × Transaction) :=
  history.filterMap fun entry => entry.2.taken?.map fun t => (entry.1, t)

def verdicts (history : List (Party × Deed)) : List Verdict :=
  history.filterMap fun entry => entry.2.verdict?

section

variable {party : Party} {first second : List (Party × Deed)}

theorem deedsOf_append :
    deedsOf party (first ++ second) = deedsOf party first ++ deedsOf party second := by
  rw [deedsOf, List.filter_append, List.map_append]
  rfl

theorem handedOut_append : handedOut (first ++ second) = handedOut first ++ handedOut second :=
  List.filterMap_append

theorem verdicts_append : verdicts (first ++ second) = verdicts first ++ verdicts second :=
  List.filterMap_append

theorem deedsOf_map_self (deeds : List Deed) : deedsOf party (deeds.map (party, ·)) = deeds := by
  simp [deedsOf, List.filter_map, Function.comp_def]

theorem deedsOf_map_of_ne {other : Party} (h : other ≠ party) (deeds : List Deed) :
    deedsOf party (deeds.map (other, ·)) = [] := by
  simp [deedsOf, List.filter_map, Function.comp_def, h]

theorem handedOut_map (deeds : List Deed) :
    handedOut (deeds.map (party, ·)) = (deeds.filterMap Deed.taken?).map (party, ·) := by
  rw [handedOut, List.filterMap_map, List.map_filterMap]
  rfl

theorem verdicts_map (deeds : List Deed) :
    verdicts (deeds.map (party, ·)) = deeds.filterMap Deed.verdict? := by
  rw [verdicts, List.filterMap_map]
  rfl

end

namespace Worker

variable {pacing : Pacing} {now : Nat} {stopped : Bool} {failure : Option String} {q : Queue}
  {w : Worker} {explicit : Bool} {p : Playback}

theorem step_playing_of_result?_eq_none
    (h : (p.step pacing q.statements now stopped failure).result? = none) :
    (playing explicit p).step pacing now stopped failure q =
      (playing explicit (p.step pacing q.statements now stopped failure), q, none) := by
  rw [step, h]

theorem step_playing_of_result?_eq_some {result : Except Fault Outcome}
    (h : (p.step pacing q.statements now stopped failure).result? = some result) :
    (playing explicit p).step pacing now stopped failure q =
      ((settle explicit (verdict result)).1, q, (settle explicit (verdict result)).2) := by
  rw [step, h]

theorem deeds_playing :
    (playing explicit p).deeds pacing now stopped failure q =
      (p.acts stopped failure).map .act ++
        ((playing explicit p).step pacing now stopped failure q).2.2.toList.map .count := rfl

theorem deeds_closing {commit : Bool} {verdict : Verdict} :
    (closing commit verdict).deeds pacing now stopped failure q =
      [.act (.request (if commit then .commit else .rollback) failure),
        .count (if commit && failure.isSome then .failed else verdict)] := rfl

theorem filterMap_taken?_deeds :
    (w.deeds pacing now stopped failure q).filterMap Deed.taken? = (w.taken? q).toList := by
  simp [deeds, List.filterMap_map, Function.comp_def, Deed.taken?]

theorem filterMap_verdict?_deeds :
    (w.deeds pacing now stopped failure q).filterMap Deed.verdict? =
      (w.step pacing now stopped failure q).2.2.toList := by
  simp [deeds, List.filterMap_map, Function.comp_def, Deed.verdict?]

end Worker

theorem foldr_set_add {α : Type} {f : α → Nat} {l : List α} {index : Nat} {a b : α}
    (h : l[index]? = some a) :
    (l.set index b).foldr (fun x n => f x + n) 0 + f a = l.foldr (fun x n => f x + n) 0 + f b := by
  induction l generalizing index with
  | nil => cases h
  | cons x xs ih =>
    cases index with
    | zero =>
      cases h
      simp only [List.set_cons_zero, List.foldr_cons]
      omega
    | succ index =>
      have := ih h
      simp only [List.set_cons_succ, List.foldr_cons]
      omega

namespace Crew

def deeds (pacing : Pacing) (c : Crew) : Turn → List Deed
  | .worker index now reaction =>
    match c.workers[index]? with
    | none => []
    | some w => w.deeds pacing now c.stopped reaction.failure c.queue
  | .pop => c.queue.pop.1.toList.map .take
  | .popIf condition => (c.queue.popIf condition).1.toList.map .take
  | .stop => []
  | .front => []
  | .length => []

/-- What is done in a run, by whom, in order. -/
def history (pacing : Pacing) (c : Crew) : List Move → List (Party × Deed)
  | [] => []
  | m :: moves =>
    (c.deeds pacing m.turn).map (m.party, ·) ++ history pacing (c.step pacing m.turn) moves

def after (pacing : Pacing) (c : Crew) (moves : List Move) : Crew :=
  c.run pacing (moves.map Move.turn)

variable {pacing : Pacing}

/-- What holds at the start and is kept in every turn holds after every run. -/
theorem history_induction {P : Crew → List (Party × Deed) → Prop}
    (step : ∀ c history (m : Move), P c history →
      P (c.step pacing m.turn) (history ++ (c.deeds pacing m.turn).map (m.party, ·)))
    {c : Crew} (start : P c []) (moves : List Move) :
    P (c.after pacing moves) (c.history pacing moves) := by
  suffices ∀ before c, P c before →
      P (c.after pacing moves) (before ++ c.history pacing moves) from this [] c start
  induction moves with
  | nil =>
    intro before c h
    rw [history, List.append_nil]
    exact h
  | cons m moves ih =>
    intro before c h
    rw [history, ← List.append_assoc]
    exact ih _ _ (step c before m h)

theorem stepWorker_of_getElem? {c : Crew} {index : Nat} {w : Worker}
    (h : c.workers[index]? = some w) (now : Nat) (reaction : Reaction) :
    c.stepWorker pacing index now reaction =
      { queue := (w.step pacing now c.stopped reaction.failure c.queue).2.1
        stopped := c.stopped || (w.request?.isSome && reaction.stop)
        tally := ((w.step pacing now c.stopped reaction.failure c.queue).2.2.elim c.tally
          c.tally.count)
        workers :=
          c.workers.set index (w.step pacing now c.stopped reaction.failure c.queue).1 } := by
  rw [stepWorker, h]
  dsimp only
  cases (w.step pacing now c.stopped reaction.failure c.queue).2.2 with
  | none => rfl
  | some verdict => rfl

/-- What a turn is to a crew: a step of one of its workers, or at most the taking of a transaction
by another client. -/
inductive Moves (pacing : Pacing) (c : Crew) (m : Move) : Prop
  | worker (index now : Nat) (reaction : Reaction) (w : Worker) (party : m.party = .worker index)
      (worker : c.workers[index]? = some w)
      (deeds : c.deeds pacing m.turn = w.deeds pacing now c.stopped reaction.failure c.queue)
      (step : c.step pacing m.turn = c.stepWorker pacing index now reaction)
  | aside (taken : Option Transaction) (party : m.party.isWorker = true → taken = none)
      (deeds : c.deeds pacing m.turn = taken.toList.map .take)
      (queue : taken.toList ++ (c.step pacing m.turn).queue.transactions = c.queue.transactions)
      (statements : (c.step pacing m.turn).queue.statements = c.queue.statements)
      (stopped : c.stopped = true → (c.step pacing m.turn).stopped = true)
      (tally : (c.step pacing m.turn).tally = c.tally)
      (workers : (c.step pacing m.turn).workers = c.workers)

theorem moves (pacing : Pacing) (c : Crew) (m : Move) : c.Moves pacing m := by
  obtain ⟨client, turn⟩ := m
  cases turn with
  | worker index now reaction =>
    cases hw : c.workers[index]? with
    | none =>
      have hstep : c.step pacing (.worker index now reaction) = c := by rw [step, stepWorker, hw]
      have hdeeds : c.deeds pacing (.worker index now reaction) = [] := by rw [deeds, hw]
      exact .aside none (fun _ => rfl) hdeeds (by rw [hstep]; rfl) (by rw [hstep])
        (by rw [hstep]; exact id) (by rw [hstep]) (by rw [hstep])
    | some w => exact .worker index now reaction w rfl hw (by rw [deeds, hw]) rfl
  | stop => exact .aside none (fun _ => rfl) rfl rfl rfl (fun _ => rfl) rfl rfl
  | pop => exact .aside c.queue.pop.1 nofun rfl c.queue.pop_append rfl id rfl rfl
  | popIf condition =>
    exact .aside (c.queue.popIf condition).1 nofun rfl (c.queue.popIf_append condition)
      (c.queue.statements_popIf condition) id rfl rfl
  | front => exact .aside none nofun rfl rfl rfl id rfl rfl
  | length => exact .aside none nofun rfl rfl rfl id rfl rfl

/-- What a turn is to the worker with a number: a step of its own, or nothing. -/
inductive Concerns (pacing : Pacing) (c : Crew) (m : Move) (index : Nat) : Prop
  | own (now : Nat) (reaction : Reaction) (w : Worker) (party : m.party = .worker index)
      (worker : c.workers[index]? = some w)
      (deeds : deedsOf (.worker index) ((c.deeds pacing m.turn).map (m.party, ·)) =
        w.deeds pacing now c.stopped reaction.failure c.queue)
      (after : (c.step pacing m.turn).workers[index]? =
        some (w.step pacing now c.stopped reaction.failure c.queue).1)
  | other (party : m.party = .worker index → c.workers[index]? = none)
      (deeds : deedsOf (.worker index) ((c.deeds pacing m.turn).map (m.party, ·)) = [])
      (after : (c.step pacing m.turn).workers[index]? = c.workers[index]?)

theorem concerns (pacing : Pacing) (c : Crew) (m : Move) (index : Nat) :
    c.Concerns pacing m index := by
  obtain ⟨client, turn⟩ := m
  have hclient : Party.client client ≠ .worker index := nofun
  cases turn with
  | worker turnIndex now reaction =>
    by_cases hindex : turnIndex = index
    · subst hindex
      cases hw : c.workers[turnIndex]? with
      | none =>
        have hstep : c.step pacing (.worker turnIndex now reaction) = c := by
          rw [step, stepWorker, hw]
        have hdeeds : c.deeds pacing (.worker turnIndex now reaction) = [] := by rw [deeds, hw]
        refine .other (fun _ => hw) ?_ (by rw [hstep])
        rw [hdeeds]
        rfl
      | some w =>
        have hlt := (List.getElem?_eq_some_iff.mp hw).1
        have hdeeds : c.deeds pacing (.worker turnIndex now reaction) =
            w.deeds pacing now c.stopped reaction.failure c.queue := by rw [deeds, hw]
        refine .own now reaction w rfl hw ?_ ?_
        · rw [hdeeds]
          exact deedsOf_map_self _
        · rw [step, stepWorker_of_getElem? hw]
          exact List.getElem?_set_self hlt
    · have hparty : Party.worker turnIndex ≠ .worker index :=
        fun heq => hindex (Party.worker.inj heq)
      refine .other (fun h => absurd h hparty) (deedsOf_map_of_ne hparty _) ?_
      cases hw : c.workers[turnIndex]? with
      | none => rw [step, stepWorker, hw]
      | some w =>
        rw [step, stepWorker_of_getElem? hw]
        exact List.getElem?_set_ne hindex
  | stop => exact .other nofun rfl rfl
  | pop => exact .other nofun (deedsOf_map_of_ne hclient _) rfl
  | popIf condition => exact .other nofun (deedsOf_map_of_ne hclient _) rfl
  | front => exact .other nofun rfl rfl
  | length => exact .other nofun rfl rfl

/-- The sign to stop is not taken back. -/
theorem stopped_step {c : Crew} (h : c.stopped = true) (m : Move) :
    (c.step pacing m.turn).stopped = true := by
  cases c.moves pacing m with
  | worker index now reaction w party worker deeds step =>
    rw [step, stepWorker_of_getElem? worker, h]
    rfl
  | aside taken party deeds queue statements stopped tally workers => exact stopped h

/-- The tally counts the verdicts of a run. -/
theorem tally_after (c : Crew) (moves : List Move) :
    (c.after pacing moves).tally =
      (verdicts (c.history pacing moves)).foldl Tally.count c.tally := by
  refine history_induction (P := fun d history =>
    d.tally = (verdicts history).foldl Tally.count c.tally) ?_ rfl moves
  intro d history m h
  rw [verdicts_append, verdicts_map, List.foldl_append, ← h]
  cases d.moves pacing m with
  | worker index now reaction w party worker deeds step =>
    rw [step, deeds, stepWorker_of_getElem? worker, Worker.filterMap_verdict?_deeds]
    cases (w.step pacing now d.stopped reaction.failure d.queue).2.2 with
    | none => rfl
    | some verdict => rfl
  | aside taken party deeds queue statements stopped tally workers =>
    rw [deeds, tally]
    cases taken with
    | none => rfl
    | some t => rfl

end Crew

end WorkloadReplay
