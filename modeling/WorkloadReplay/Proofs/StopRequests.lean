import WorkloadReplay.Proofs.TransactionBlocks

/-!
# Stop requests

Once the sign to stop has been given, a worker only winds up what it is at. Each of its steps brings
it to a later stage: taking a transaction, opening it or executing the statement that is due,
looking at the sign, closing the transaction, looking for another one, and the end. So it does each
of these at most once and in this order. The transactions that it has opened it closes as always.
-/

namespace WorkloadReplay

namespace Request

def isClosing : Request → Bool
  | commit => true
  | rollback => true
  | _ => false

/-- The stage of winding up to which a request belongs. -/
def stage : Request → Nat
  | begin => 1
  | execute _ _ _ => 1
  | commit => 3
  | rollback => 3

theorem stage_of_isExecute {r : Request} (h : r.isExecute = true) : r.stage = 1 := by
  cases r with
  | execute key sql params => rfl
  | begin => cases h
  | commit => cases h
  | rollback => cases h

theorem stage_of_isClosing {r : Request} (h : r.isClosing = true) : r.stage = 3 := by
  cases r with
  | commit => rfl
  | rollback => rfl
  | begin => cases h
  | execute key sql params => cases h

end Request

namespace Deed

def request? : Deed → Option Request
  | act (.request request _) => some request
  | _ => none

/-- The stage of winding up to which a deed belongs. To count a transaction is part of what was done
before. -/
def stage? : Deed → Option Nat
  | take _ => some 0
  | act (.look _) => some 2
  | act (.request request _) => some request.stage
  | count _ => none

theorem stage?_of_request? {d : Deed} {r : Request} (h : d.request? = some r) :
    d.stage? = some r.stage := by
  cases d with
  | act act =>
    cases act with
    | request request failure =>
      cases h
      rfl
    | look stopped => cases h
  | take t => cases h
  | count verdict => cases h

end Deed

def askedFor (deeds : List Deed) : List Request := deeds.filterMap Deed.request?

def stages (deeds : List Deed) : List Nat := deeds.filterMap Deed.stage?

def turnsOf (index : Nat) (moves : List Move) : Nat :=
  moves.countP fun m => m.party = .worker index

theorem stages_append (deeds more : List Deed) :
    stages (deeds ++ more) = stages deeds ++ stages more := List.filterMap_append

theorem askedFor_append (deeds more : List Deed) :
    askedFor (deeds ++ more) = askedFor deeds ++ askedFor more := List.filterMap_append

namespace Playback

variable {p : Playback} (pacing : Pacing) (table : StatementTable) (now : Nat)
  (failure : Option String)

theorem isSome_result?_step (h : p.request? = none) :
    (p.step pacing table now true failure).result?.isSome = true := by
  obtain ⟨started, ⟨kind, firstTime, calls⟩, executed, phase⟩ := p
  cases phase with
  | next => cases calls <;> rfl
  | waiting call => rfl
  | issuing key sql params => cases h
  | ended result => rfl

theorem request?_step_eq_none (h : p.request?.isSome = true) (stopped : Bool) :
    (p.step pacing table now stopped failure).request? = none := by
  obtain ⟨started, remaining, executed, phase⟩ := p
  cases phase with
  | issuing key sql params => cases failure <;> rfl
  | next => cases h
  | waiting call => cases h
  | ended result => cases h

theorem stages_acts (p : Playback) (failure : Option String) :
    stages ((p.acts true failure).map .act) = [] ∨
      stages ((p.acts true failure).map .act) = [if p.request?.isSome then 1 else 2] := by
  obtain ⟨started, ⟨kind, firstTime, calls⟩, executed, phase⟩ := p
  cases phase with
  | next =>
    cases calls with
    | nil => exact .inl rfl
    | cons call calls => exact .inr rfl
  | waiting call => exact .inr rfl
  | issuing key sql params => exact .inr rfl
  | ended result => exact .inl rfl

end Playback

namespace Worker

def stage : Worker → Nat
  | claiming => 0
  | opening _ => 1
  | playing _ p => if p.request?.isSome then 1 else 2
  | closing _ _ => 3
  | idle => 4
  | ended => 5

variable {pacing : Pacing} {now : Nat} {failure : Option String} {q : Queue} {w : Worker}

theorem stage_playing_le (explicit : Bool) (p : Playback) : (playing explicit p).stage ≤ 2 := by
  rw [stage]
  split <;> decide

theorem eq_ended_of_stage (h : 5 ≤ w.stage) : w = .ended := by
  cases w with
  | ended => rfl
  | playing explicit p => exact absurd (Nat.le_trans h (stage_playing_le explicit p)) (by decide)
  | claiming => cases h
  | opening t => exact absurd h (by simp [stage])
  | closing commit verdict => exact absurd h (by simp [stage])
  | idle => exact absurd h (by decide)

theorem three_le_stage_settle (explicit : Bool) (verdict : Verdict) :
    3 ≤ (settle explicit verdict).1.stage := by
  cases explicit <;> simp [settle, stage]

/-- A step that sees the sign to stop goes on to a later stage. -/
theorem stage_lt_step (hw : w ≠ .ended) (pacing : Pacing) (now : Nat) (failure : Option String)
    (q : Queue) : w.stage < (w.step pacing now true failure q).1.stage := by
  cases w with
  | idle => exact Nat.lt_add_one 4
  | claiming =>
    obtain ⟨transactions, statements⟩ := q
    cases transactions with
    | nil => exact Nat.succ_pos 4
    | cons t ts =>
      simp only [step, Queue.pop_cons]
      split <;> exact Nat.succ_pos _
  | opening t => cases failure <;> simp [step, stage, Playback.request?, Playback.start]
  | playing explicit p =>
    cases hresult : (p.step pacing q.statements now true failure).result? with
    | some result =>
      rw [step_playing_of_result?_eq_some hresult]
      exact Nat.lt_of_le_of_lt (stage_playing_le explicit p) (three_le_stage_settle explicit _)
    | none =>
      rw [step_playing_of_result?_eq_none hresult]
      cases hrequest : p.request? with
      | none =>
        have hended := Playback.isSome_result?_step pacing q.statements now failure hrequest
        rw [hresult] at hended
        cases hended
      | some request =>
        have hsome : p.request?.isSome = true := by
          rw [hrequest]
          rfl
        have hnone := Playback.request?_step_eq_none pacing q.statements now failure hsome true
        simp [stage, hrequest, hnone]
  | closing commit verdict => exact Nat.lt_add_one 3
  | ended => exact absurd rfl hw

theorem stages_map_count (verdicts : List Verdict) : stages (verdicts.map .count) = [] := by
  induction verdicts with
  | nil => rfl
  | cons verdict verdicts ih => exact ih

theorem stages_deeds (w : Worker) (pacing : Pacing) (now : Nat) (failure : Option String)
    (q : Queue) :
    stages (w.deeds pacing now true failure q) = [] ∨
      stages (w.deeds pacing now true failure q) = [w.stage] := by
  cases w with
  | idle => exact .inl rfl
  | claiming =>
    obtain ⟨transactions, statements⟩ := q
    cases transactions with
    | nil => exact .inl rfl
    | cons t ts => exact .inr rfl
  | opening t => cases failure <;> exact .inr rfl
  | playing explicit p =>
    rw [deeds_playing, stages_append, stages_map_count, List.append_nil]
    exact p.stages_acts failure
  | closing commit verdict => cases commit <;> exact .inr rfl
  | ended => exact .inl rfl

theorem askedFor_deeds (w : Worker) (pacing : Pacing) (now : Nat) (stopped : Bool)
    (failure : Option String) (q : Queue) :
    askedFor (w.deeds pacing now stopped failure q) = w.request?.toList := by
  have hcounts (verdicts : List Verdict) : askedFor (verdicts.map .count) = [] := by
    induction verdicts with
    | nil => rfl
    | cons verdict verdicts ih => exact ih
  cases w with
  | idle => rfl
  | claiming =>
    obtain ⟨transactions, statements⟩ := q
    cases transactions <;> rfl
  | opening t => cases failure <;> rfl
  | playing explicit p =>
    rw [deeds_playing, askedFor_append, hcounts, List.append_nil, Playback.acts, List.map_append,
      askedFor_append]
    have hlook : askedFor ((if p.looks then [Act.look stopped] else []).map .act) = [] := by
      split <;> rfl
    rw [hlook, List.nil_append, request?]
    cases p.request? <;> rfl
  | closing commit verdict => rfl
  | ended => rfl

/-- No statement is due after a step that sees the sign to stop, and none after one in which a
statement was. -/
theorem isExecute_of_request?_step {stopped : Bool}
    (h : stopped = true ∨ ∃ r, w.request? = some r ∧ r.isExecute = true) {r : Request}
    (hr : (w.step pacing now stopped failure q).1.request? = some r) : r.isExecute = false := by
  cases w with
  | idle => cases stopped <;> cases hr
  | claiming =>
    obtain ⟨transactions, statements⟩ := q
    cases transactions with
    | nil => cases hr
    | cons t ts =>
      simp only [step, Queue.pop_cons] at hr
      split at hr <;> cases hr
      rfl
  | opening t => cases failure <;> cases hr
  | playing explicit p =>
    cases hresult : (p.step pacing q.statements now stopped failure).result? with
    | some result =>
      rw [step_playing_of_result?_eq_some hresult] at hr
      cases explicit <;> cases hr
      exact isExecute_closingRequest _
    | none =>
      have hsome : p.request?.isSome = true := by
        rcases h with rfl | ⟨r, hr, -⟩
        · by_contra hnone
          have hended := Playback.isSome_result?_step pacing q.statements now failure
            (Option.not_isSome_iff_eq_none.mp hnone)
          rw [hresult] at hended
          cases hended
        · exact Option.isSome_of_mem hr
      rw [step_playing_of_result?_eq_none hresult] at hr
      have hnone := Playback.request?_step_eq_none pacing q.statements now failure hsome stopped
      rw [request?, hnone] at hr
      cases hr
  | closing commit verdict => cases hr
  | ended => cases hr

end Worker

/-- What a worker does from the sign to stop on. -/
structure WindsUp (w : Worker) (late : List Deed) : Prop where
  /-- It takes at most one more transaction. -/
  takes : (late.filterMap Deed.taken?).length ≤ 1
  /-- It executes at most one more statement. -/
  executes : ((askedFor late).filter (·.isExecute)).length ≤ 1
  /-- That is the one that was due, after its last look at the sign. -/
  due : ∀ r ∈ askedFor late, r.isExecute = true → w.request? = some r
  /-- It commits or rolls back at most once. -/
  closings : ((askedFor late).filter (·.isClosing)).length ≤ 1
  /-- Behind the taking of a transaction come only a begin or an execution, then a look at the sign,
  then a commit or rollback, and nothing else. -/
  ordered : (stages late).Pairwise (· < ·)

/-- How a worker goes on from the sign to stop: what it does, in so many turns, and what it is
then. -/
structure Winding (w : Worker) (late : List Deed) (turns : Nat) (last : Worker) : Prop where
  ordered : (stages late).Pairwise (· < ·)
  later : ∀ stage ∈ stages late, w.stage ≤ stage
  due : ∀ r ∈ askedFor late, r.isExecute = true → w.request? = some r
  reached : last = .ended ∨ w.stage + turns ≤ last.stage

section

variable {pacing : Pacing} {now turns : Nat} {failure : Option String} {q : Queue}
  {w last : Worker} {late : List Deed}

theorem winding_nil (w : Worker) : Winding w [] 0 w :=
  ⟨.nil, nofun, nofun, .inr (Nat.le_refl _)⟩

theorem Winding.cons (h : Winding (w.step pacing now true failure q).1 late turns last) :
    Winding w (w.deeds pacing now true failure q ++ late) (turns + 1) last := by
  by_cases hw : w = .ended
  · subst hw
    refine ⟨h.ordered, h.later, h.due, .inl ?_⟩
    rcases h.reached with hended | hstage
    · exact hended
    · exact Worker.eq_ended_of_stage (Nat.le_trans (Nat.le_add_right 5 turns) hstage)
  · have hlt := Worker.stage_lt_step hw pacing now failure q
    have hlater : ∀ stage ∈ stages late, w.stage < stage := fun stage hstage =>
      Nat.lt_of_lt_of_le hlt (h.later stage hstage)
    refine ⟨?_, ?_, ?_, h.reached.imp_right fun hstage => by omega⟩
    · rw [stages_append]
      rcases w.stages_deeds pacing now failure q with hnone | hone
      · rw [hnone]
        exact h.ordered
      · rw [hone]
        exact .cons hlater h.ordered
    · rw [stages_append]
      intro stage hstage
      rcases List.mem_append.mp hstage with hstage | hstage
      · rcases w.stages_deeds pacing now failure q with hnone | hone
        · rw [hnone] at hstage
          cases hstage
        · rw [hone] at hstage
          exact Nat.le_of_eq (List.mem_singleton.mp hstage).symm
      · exact Nat.le_of_lt (hlater stage hstage)
    · rw [askedFor_append, w.askedFor_deeds]
      intro r hr hexecute
      rcases List.mem_append.mp hr with hr | hr
      · exact Option.mem_toList.mp hr
      · have hnot := Worker.isExecute_of_request?_step (.inl rfl) (h.due r hr hexecute)
        rw [hexecute] at hnot
        cases hnot

end

section

variable {pacing : Pacing} {c : Crew} {w : Worker} {index : Nat}

/-- A worker winds up in its turns, whatever the turns between them. -/
theorem exists_winding (hstopped : c.stopped = true) (hw : c.workers[index]? = some w)
    (moves : List Move) :
    ∃ last, (c.after pacing moves).workers[index]? = some last ∧
      Winding w (deedsOf (.worker index) (c.history pacing moves)) (turnsOf index moves) last := by
  induction moves generalizing c w with
  | nil => exact ⟨w, hw, winding_nil w⟩
  | cons m moves ih =>
    have hnext : (c.step pacing m.turn).stopped = true := Crew.stopped_step hstopped m
    rw [Crew.history, deedsOf_append, turnsOf, List.countP_cons]
    cases c.concerns pacing m index with
    | own now reaction v party worker deeds after =>
      rw [worker] at hw
      cases hw
      obtain ⟨last, hlast, hwinding⟩ := ih hnext after
      refine ⟨last, hlast, ?_⟩
      rw [hstopped] at deeds hwinding
      rw [deeds, party, decide_eq_true rfl, if_pos rfl]
      exact hwinding.cons
    | other party deeds after =>
      have hparty : m.party ≠ .worker index := by
        intro hparty
        rw [party hparty] at hw
        cases hw
      rw [hw] at after
      rw [deeds, decide_eq_false hparty]
      exact ih hnext after

theorem length_filterMap_le_one {α : Type} {f : Deed → Option α} (stage : Nat)
    (hf : ∀ d a, f d = some a → d.stage? = some stage) {late : List Deed}
    (h : (stages late).Pairwise (· < ·)) : (late.filterMap f).length ≤ 1 := by
  induction late with
  | nil => exact Nat.zero_le 1
  | cons d late ih =>
    cases hd : f d with
    | none =>
      rw [List.filterMap_cons_none hd]
      refine ih (h.sublist ?_)
      exact (List.sublist_cons_self d late).filterMap _
    | some a =>
      have hstages : stages (d :: late) = stage :: stages late :=
        List.filterMap_cons_some (hf d a hd)
      rw [hstages] at h
      have hnone : late.filterMap f = [] := by
        refine List.filterMap_eq_nil_iff.mpr fun e he => ?_
        cases hb : f e with
        | none => rfl
        | some b =>
          have hmem : stage ∈ stages late := List.mem_filterMap.mpr ⟨e, he, hf e b hb⟩
          exact absurd (List.rel_of_pairwise_cons h hmem) (Nat.lt_irrefl stage)
      rw [List.filterMap_cons_some hd, hnone]
      exact Nat.le_refl 1

theorem Winding.windsUp {late : List Deed} {turns : Nat} {last : Worker}
    (h : Winding w late turns last) : WindsUp w late where
  takes := by
    refine length_filterMap_le_one 0 (fun d t hd => ?_) h.ordered
    cases d <;> cases hd
    rfl
  executes := by
    rw [askedFor, List.filter_filterMap]
    refine length_filterMap_le_one 1 (fun d r hd => ?_) h.ordered
    obtain ⟨hr, hexecute⟩ := Option.filter_eq_some_iff.mp hd
    rw [Deed.stage?_of_request? hr, Request.stage_of_isExecute hexecute]
  due := h.due
  closings := by
    rw [askedFor, List.filter_filterMap]
    refine length_filterMap_le_one 3 (fun d r hd => ?_) h.ordered
    obtain ⟨hr, hclosing⟩ := Option.filter_eq_some_iff.mp hd
    rw [Deed.stage?_of_request? hr, Request.stage_of_isClosing hclosing]
  ordered := h.ordered

end

/-- A transaction that has been opened is committed or rolled back once. -/
theorem Block.Sound.length_closings {table : StatementTable} {b : Block} (h : b.Sound table)
    (hbegin : .request .begin none ∈ b.acts) :
    ((requests b.acts).filter (·.isClosing)).length = 1 := by
  have hnot {r : Request} (hr : r.isExecute = true) : ¬ r.isClosing = true := by
    cases r <;> simp_all [Request.isExecute, Request.isClosing]
  cases hexplicit : b.transaction.isExplicit with
  | false => cases h.implicit hexplicit _ (request_mem_requests hbegin)
  | true =>
    rcases h.explicit hexplicit with ⟨reason, hacts⟩ | ⟨play, commit, failure, hacts, hplay, -⟩
    · rw [hacts] at hbegin
      cases List.mem_singleton.mp hbegin
    · have hnone : (requests play).filter (·.isClosing) = [] :=
        List.filter_eq_nil_iff.mpr fun r hr => hnot (hplay r hr)
      have hopens : ¬ Request.begin.isClosing = true := nofun
      rw [hacts, requests_bracketed, List.filter_cons_of_neg hopens, List.filter_append, hnone]
      cases commit <;> rfl

theorem exists_blocks_of_ended {pacing : Pacing} {q : Queue} {workers index : Nat}
    {stopped : Bool} {moves : List Move}
    (hended : ((Crew.start q workers stopped).after pacing moves).workers[index]? = some .ended) :
    ∃ blocks : List Block,
      deedsOf (.worker index) ((Crew.start q workers stopped).history pacing moves) =
        blocks.flatMap Block.deeds ∧ ∀ b ∈ blocks, b.Sound q.statements := by
  let Kept (c : Crew) (history : List (Party × Deed)) : Prop :=
    c.queue.statements = q.statements ∧
      MadeOfBlocks q.statements (deedsOf (.worker index) history) c.workers[index]?
  have hkept : Kept ((Crew.start q workers stopped).after pacing moves)
      ((Crew.start q workers stopped).history pacing moves) :=
    Crew.history_induction (fun c history m h =>
      ⟨(c.statements_step pacing m).trans h.1, madeOfBlocks_step h.1 h.2 m⟩)
      ⟨rfl, madeOfBlocks_start q.statements _ index⟩ moves
  obtain ⟨-, blocks, pending, hdeeds, harises, hpending⟩ := hkept
  rw [hended] at hpending
  obtain rfl : pending = [] := Pending.eq_nil hpending rfl
  rw [List.append_nil] at hdeeds
  exact ⟨blocks, hdeeds, fun b hb => (harises b hb).sound⟩

/-- No statement is executed behind one that has given the sign to stop itself. -/
theorem not_isExecute_of_own_stop {pacing : Pacing} {c : Crew} {w : Worker} {index now : Nat}
    {reaction : Reaction} {request : Request} (hw : c.workers[index]? = some w)
    (hrequest : w.request? = some request) (hexecute : request.isExecute = true)
    (hstop : reaction.stop = true) (moves : List Move) :
    (c.stepWorker pacing index now reaction).stopped = true ∧
      ∀ r ∈ askedFor (deedsOf (.worker index)
        ((c.stepWorker pacing index now reaction).history pacing moves)), r.isExecute = false := by
  have hstopped : (c.stepWorker pacing index now reaction).stopped = true := by
    rw [Crew.stepWorker_of_getElem? hw, hrequest, hstop]
    exact Bool.or_true _
  have hnext : (c.stepWorker pacing index now reaction).workers[index]? =
      some (w.step pacing now c.stopped reaction.failure c.queue).1 := by
    rw [Crew.stepWorker_of_getElem? hw]
    exact List.getElem?_set_self (List.getElem?_eq_some_iff.mp hw).1
  obtain ⟨last, -, hwinding⟩ := exists_winding hstopped hnext moves
  refine ⟨hstopped, fun r hr => ?_⟩
  cases hagain : r.isExecute with
  | false => rfl
  | true =>
    have hdue := hwinding.due r hr hagain
    have hnot := Worker.isExecute_of_request?_step (.inr ⟨request, hrequest, hexecute⟩) hdue
    exact hagain.symm.trans hnot

/-- A stop request takes effect within one statement of each worker: with the sign given, a worker
only winds up what it is at, and has ended after five turns of its own. All transactions that it has
opened, before or after the sign, have then been committed or rolled back once. If a statement gives
the sign itself, its worker executes no other one. -/
theorem windsUp_of_stopped (pacing : Pacing) (q : Queue) (workers : Nat) (stopped : Bool)
    (before after : List Move) (index : Nat) :
    let c := (Crew.start q workers stopped).after pacing before
    (∀ w, c.stopped = true → c.workers[index]? = some w →
      WindsUp w (deedsOf (.worker index) (c.history pacing after)) ∧
        (5 ≤ turnsOf index after →
          (c.after pacing after).workers[index]? = some .ended ∧
            ∃ blocks : List Block,
              deedsOf (.worker index) ((Crew.start q workers stopped).history pacing
                (before ++ after)) = blocks.flatMap Block.deeds ∧
              ∀ b ∈ blocks, .request .begin none ∈ b.acts →
                ((requests b.acts).filter (·.isClosing)).length = 1)) ∧
      ∀ w now reaction request, c.workers[index]? = some w → w.request? = some request →
        request.isExecute = true → reaction.stop = true →
          (c.stepWorker pacing index now reaction).stopped = true ∧
            ∀ r ∈ askedFor (deedsOf (.worker index)
              ((c.stepWorker pacing index now reaction).history pacing after)),
              r.isExecute = false := by
  intro c
  refine ⟨fun w hstopped hw => ?_, fun w now reaction request hw hrequest hexecute hstop =>
    not_isExecute_of_own_stop hw hrequest hexecute hstop after⟩
  obtain ⟨last, hlast, hwinding⟩ := exists_winding hstopped hw after
  refine ⟨hwinding.windsUp, fun hturns => ?_⟩
  have hended : (c.after pacing after).workers[index]? = some .ended := by
    rw [hlast]
    rcases hwinding.reached with hended | hstage
    · rw [hended]
    · have hstage : 5 ≤ last.stage := by omega
      rw [Worker.eq_ended_of_stage hstage]
  have hwhole : (Crew.start q workers stopped).after pacing (before ++ after) =
      c.after pacing after := by
    rw [Crew.after, Crew.run, List.map_append, List.foldl_append]
    rfl
  obtain ⟨blocks, hdeeds, hsound⟩ := exists_blocks_of_ended (hwhole ▸ hended)
  exact ⟨hended, blocks, hdeeds, fun b hb => (hsound b hb).length_closings⟩

/-- The sign is given when a statement is due, by someone else or by the statement itself: it is
executed, and its transaction is rolled back. -/
theorem windsUp_of_stopped_insert :
    let turn (stop : Bool) : Move := ⟨0, .worker 0 0 ⟨none, stop⟩⟩
    let start := Crew.start insertQueue 1 false
    let due := start.after ⟨false, .one⟩ (List.replicate 4 (turn false))
    let c := due.step ⟨false, .one⟩ .stop
    let after := List.replicate 5 (turn false)
    let late := deedsOf (.worker 0) (c.history ⟨false, .one⟩ after)
    c.stopped = true ∧
      late = [.act (.request (.execute (.interned 3) "INSERT" []) none), .act (.look true),
        .act (.request .rollback none), .count .cancelled] ∧
      (∃ w, c.workers[0]? = some w ∧ WindsUp w late) ∧
      (c.after ⟨false, .one⟩ after).workers[0]? = some .ended ∧
      (due.step ⟨false, .one⟩ (turn true).turn).stopped = true ∧
      ∀ r ∈ askedFor (deedsOf (.worker 0)
        ((due.step ⟨false, .one⟩ (turn true).turn).history ⟨false, .one⟩ after)),
        r.isExecute = false := by
  intro turn start due c after late
  have hstopped : c.stopped = true := rfl
  obtain ⟨hwinds, -⟩ := windsUp_of_stopped ⟨false, .one⟩ insertQueue 1 false
    (List.replicate 4 (turn false) ++ [⟨0, .stop⟩]) after 0
  obtain ⟨-, hown⟩ := windsUp_of_stopped ⟨false, .one⟩ insertQueue 1 false
    (List.replicate 4 (turn false)) after 0
  obtain ⟨hwindsUp, hended⟩ := hwinds _ hstopped rfl
  obtain ⟨hsign, hnone⟩ := hown _ 0 ⟨none, true⟩ _ rfl rfl rfl rfl
  exact ⟨hstopped, by decide, ⟨_, rfl, hwindsUp⟩, (hended (by decide)).1, hsign, hnone⟩

end WorkloadReplay
