import WorkloadReplay.Proofs.CrewHistory

/-!
# Sharing a queue

Whatever the order of the turns, what has been handed out and what is left are the transactions of
the queue in their order, so each is handed to one party and to no other. A worker counts each
transaction that it takes once, and has counted it when it looks for another one; so a crew that has
ended has counted all that its workers took, and the queue is empty unless the sign to stop was
given.
-/

namespace WorkloadReplay

namespace Worker

/-- The worker has taken a transaction that it has not counted. -/
def busy : Worker → Bool
  | opening _ => true
  | playing _ _ => true
  | closing _ _ => true
  | _ => false

variable (pacing : Pacing) (now : Nat) (stopped : Bool) (failure : Option String) (q : Queue)
  (w : Worker)

theorem queue_step :
    (w.step pacing now stopped failure q).2.1 =
      match w with
      | claiming => q.pop.2
      | _ => q := by
  cases w with
  | claiming =>
    obtain ⟨transactions, statements⟩ := q
    cases transactions with
    | nil => rfl
    | cons t ts => rfl
  | opening t => cases failure <;> rfl
  | playing explicit p =>
    rw [step]
    split <;> rfl
  | idle => rfl
  | closing commit verdict => rfl
  | ended => rfl

theorem taken?_append_step :
    (w.taken? q).toList ++ (w.step pacing now stopped failure q).2.1.transactions =
      q.transactions := by
  rw [queue_step]
  cases w with
  | claiming => exact q.pop_append
  | _ => rfl

theorem statements_step :
    (w.step pacing now stopped failure q).2.1.statements = q.statements := by
  rw [queue_step]
  cases w with
  | _ => rfl

theorem settle_busy (explicit : Bool) (verdict : Verdict) :
    (settle explicit verdict).2.toList.length + (settle explicit verdict).1.busy.toNat = 1 := by
  cases explicit <;> rfl

/-- What a worker has taken it counts or has still to count. -/
theorem busy_step :
    (w.step pacing now stopped failure q).2.2.toList.length +
        (w.step pacing now stopped failure q).1.busy.toNat =
      w.busy.toNat + (w.taken? q).toList.length := by
  cases w with
  | idle => cases stopped <;> rfl
  | claiming =>
    obtain ⟨transactions, statements⟩ := q
    cases transactions with
    | nil => rfl
    | cons t ts =>
      simp only [step, taken?, Queue.pop_cons]
      cases t.isExplicit <;> rfl
  | opening t => cases failure <;> rfl
  | playing explicit p =>
    rw [step]
    split
    · exact settle_busy explicit _
    · rfl
  | closing commit verdict => rfl
  | ended => rfl

/-- A worker ends only at the sign to stop or at the end of the queue. -/
theorem stopped_or_empty_of_step_eq_ended (h : (w.step pacing now stopped failure q).1 = .ended) :
    w = .ended ∨ stopped = true ∨ (w.step pacing now stopped failure q).2.1.transactions = [] := by
  cases w with
  | idle =>
    cases stopped with
    | true => exact .inr (.inl rfl)
    | false => cases h
  | claiming =>
    obtain ⟨transactions, statements⟩ := q
    cases transactions with
    | nil => exact .inr (.inr rfl)
    | cons t ts =>
      simp only [step, Queue.pop_cons] at h
      split at h <;> cases h
  | opening t => cases failure <;> cases h
  | playing explicit p =>
    rw [step] at h
    split at h
    · cases explicit <;> cases h
    · cases h
  | closing commit verdict => cases h
  | ended => exact .inl rfl

end Worker

def Crew.busy (c : Crew) : Nat := c.workers.foldr (fun w n => w.busy.toNat + n) 0

theorem Crew.busy_eq_zero {c : Crew} (h : ∀ w ∈ c.workers, w.busy = false) : c.busy = 0 := by
  obtain ⟨queue, stopped, tally, workers⟩ := c
  rw [Crew.busy]
  induction workers with
  | nil => rfl
  | cons w ws ih =>
    obtain ⟨hw, hws⟩ := List.forall_mem_cons.mp h
    rw [List.foldr_cons, ih hws, hw]
    rfl

/-- What stands of a queue, its crew and what has been done. -/
structure Shared (q : Queue) (workers : Nat) (c : Crew) (history : List (Party × Deed)) : Prop where
  handed : (handedOut history).map (·.2) ++ c.queue.transactions = q.transactions
  statements : c.queue.statements = q.statements
  counted : c.tally.total + c.busy = (handedOut history).countP (·.1.isWorker)
  ended : ∀ w ∈ c.workers, w = .ended → c.stopped = true ∨ c.queue.transactions = []
  length : c.workers.length = workers

namespace Crew

theorem filterMap_taken?_deeds_append (pacing : Pacing) (c : Crew) (m : Move) :
    (c.deeds pacing m.turn).filterMap Deed.taken? ++ (c.step pacing m.turn).queue.transactions =
      c.queue.transactions := by
  cases c.moves pacing m with
  | worker index now reaction w party worker deeds step =>
    rw [deeds, step, stepWorker_of_getElem? worker, Worker.filterMap_taken?_deeds]
    exact w.taken?_append_step pacing now c.stopped reaction.failure c.queue
  | aside taken party deeds queue statements stopped tally workers =>
    rw [deeds, ← queue]
    simp [List.filterMap_map, Function.comp_def, Deed.taken?]

theorem statements_step (pacing : Pacing) (c : Crew) (m : Move) :
    (c.step pacing m.turn).queue.statements = c.queue.statements := by
  cases c.moves pacing m with
  | worker index now reaction w party worker deeds step =>
    rw [step, stepWorker_of_getElem? worker]
    exact w.statements_step pacing now c.stopped reaction.failure c.queue
  | aside taken party deeds queue statements stopped tally workers => exact statements

theorem length_workers_step (pacing : Pacing) (c : Crew) (m : Move) :
    (c.step pacing m.turn).workers.length = c.workers.length := by
  cases c.moves pacing m with
  | worker index now reaction w party worker deeds step =>
    rw [step, stepWorker_of_getElem? worker]
    exact List.length_set
  | aside taken party deeds queue statements stopped tally workers => rw [workers]

variable {pacing : Pacing}

theorem transactions_step_eq_nil {c : Crew} (h : c.queue.transactions = []) (m : Move) :
    (c.step pacing m.turn).queue.transactions = [] := by
  have happend := c.filterMap_taken?_deeds_append pacing m
  rw [h] at happend
  exact (List.append_eq_nil_iff.mp happend).2

theorem total_elim_count (tally : Tally) (verdict : Option Verdict) :
    (verdict.elim tally tally.count).total = tally.total + verdict.toList.length := by
  cases verdict with
  | none => rfl
  | some verdict => exact tally.total_count verdict

theorem total_step_add_busy (c : Crew) (m : Move) :
    (c.step pacing m.turn).tally.total + (c.step pacing m.turn).busy =
      c.tally.total + c.busy +
        if m.party.isWorker then ((c.deeds pacing m.turn).filterMap Deed.taken?).length else 0 := by
  cases c.moves pacing m with
  | worker index now reaction w party worker deeds step =>
    have hcounted := w.busy_step pacing now c.stopped reaction.failure c.queue
    have hbusy := foldr_set_add (f := fun w => w.busy.toNat)
      (b := (w.step pacing now c.stopped reaction.failure c.queue).1) worker
    have hparty : (Party.worker index).isWorker = true := rfl
    rw [deeds, step, party, stepWorker_of_getElem? worker, Worker.filterMap_taken?_deeds, busy,
      busy, if_pos hparty]
    dsimp only
    rw [total_elim_count]
    omega
  | aside taken party deeds queue statements stopped tally workers =>
    rw [deeds, tally, busy, busy, workers]
    split
    · rename_i hworker
      rw [party hworker]
      rfl
    · rfl

theorem stopped_or_empty_step {c : Crew}
    (h : ∀ w ∈ c.workers, w = .ended → c.stopped = true ∨ c.queue.transactions = []) (m : Move) :
    ∀ w ∈ (c.step pacing m.turn).workers, w = .ended →
      (c.step pacing m.turn).stopped = true ∨ (c.step pacing m.turn).queue.transactions = [] := by
  have hkept : ∀ w ∈ c.workers, w = .ended →
      (c.step pacing m.turn).stopped = true ∨ (c.step pacing m.turn).queue.transactions = [] := by
    intro w hw hended
    rcases h w hw hended with hstopped | hempty
    · exact .inl (stopped_step hstopped m)
    · exact .inr (transactions_step_eq_nil hempty m)
  cases c.moves pacing m with
  | worker index now reaction w party worker deeds step =>
    intro w' hw' hended
    have hworkers := hw'
    rw [step, stepWorker_of_getElem? worker] at hworkers
    rcases List.mem_or_eq_of_mem_set hworkers with hold | hnew
    · exact hkept w' hold hended
    · rcases w.stopped_or_empty_of_step_eq_ended pacing now c.stopped reaction.failure c.queue
        (hnew.symm.trans hended) with hw | hstopped | hempty
      · exact hkept w (List.mem_of_getElem? worker) hw
      · exact .inl (stopped_step hstopped m)
      · right
        rw [step, stepWorker_of_getElem? worker]
        exact hempty
  | aside taken party deeds queue statements stopped tally workers =>
    rw [workers]
    exact hkept

end Crew

variable {pacing : Pacing} {q : Queue} {workers : Nat}

theorem countP_map_isWorker (party : Party) (ts : List Transaction) :
    (ts.map (party, ·)).countP (·.1.isWorker) = if party.isWorker then ts.length else 0 := by
  rw [List.countP_map]
  cases party with
  | worker index => exact List.countP_eq_length.mpr fun _ _ => rfl
  | client number => exact List.countP_eq_zero.mpr fun _ _ => nofun

theorem Shared.step {c : Crew} {history : List (Party × Deed)} (h : Shared q workers c history)
    (m : Move) :
    Shared q workers (c.step pacing m.turn)
      (history ++ (c.deeds pacing m.turn).map (m.party, ·)) where
  handed := by
    rw [handedOut_append, handedOut_map, List.map_append, List.map_map, List.append_assoc]
    simp only [Function.comp_def, List.map_id']
    rw [c.filterMap_taken?_deeds_append, h.handed]
  statements := by rw [c.statements_step, h.statements]
  counted := by
    rw [c.total_step_add_busy, h.counted, handedOut_append, handedOut_map, List.countP_append,
      countP_map_isWorker]
  ended := Crew.stopped_or_empty_step h.ended m
  length := by rw [c.length_workers_step, h.length]

theorem shared_start (q : Queue) (workers : Nat) (stopped : Bool) :
    Shared q (max workers 1) (.start q workers stopped) [] where
  handed := rfl
  statements := rfl
  counted := by
    rw [Crew.busy_eq_zero fun w hw => by rw [List.eq_of_mem_replicate hw]; rfl]
    rfl
  ended := by
    intro w hw hended
    rw [List.eq_of_mem_replicate hw] at hended
    cases hended
  length := List.length_replicate

theorem shared_after (pacing : Pacing) (q : Queue) (workers : Nat) (stopped : Bool)
    (moves : List Move) :
    Shared q (max workers 1) ((Crew.start q workers stopped).after pacing moves)
      ((Crew.start q workers stopped).history pacing moves) :=
  Crew.history_induction (fun _ _ m h => h.step m) (shared_start q workers stopped) moves

/-- A crew that has ended has counted each transaction that its workers took. -/
theorem Shared.of_ended {c : Crew} {history : List (Party × Deed)}
    (h : Shared q workers c history) (hworkers : 0 < workers)
    (hended : ∀ w ∈ c.workers, w = .ended) :
    c.tally.total = (handedOut history).countP (·.1.isWorker) ∧
      ((∀ entry ∈ handedOut history, entry.1.isWorker = true) →
        c.tally.total = q.length - c.queue.length) ∧
      (c.stopped = false → c.queue.transactions = []) := by
  have hbusy : c.busy = 0 := Crew.busy_eq_zero fun w hw => by rw [hended w hw]; rfl
  have htotal : c.tally.total = (handedOut history).countP (·.1.isWorker) := by
    rw [← h.counted, hbusy, Nat.add_zero]
  refine ⟨htotal, fun hall => ?_, fun hstopped => ?_⟩
  · have hlength := congrArg List.length h.handed
    rw [List.length_append, List.length_map, ← List.countP_eq_length.mpr hall, ← htotal] at hlength
    exact Nat.eq_sub_of_add_eq hlength
  · obtain ⟨w, hw⟩ := List.exists_mem_of_length_pos (Nat.lt_of_lt_of_eq hworkers h.length.symm)
    rcases h.ended w hw (hended w hw) with hgiven | hempty
    · rw [hstopped] at hgiven
      cases hgiven
    · exact hempty

/-- Nothing of a queue is lost, handed out twice or out of order, and a crew that has ended has
counted each transaction that its workers took. -/
theorem queue_shared (pacing : Pacing) (q : Queue) (workers : Nat) (stopped : Bool)
    (moves : List Move) :
    let c := (Crew.start q workers stopped).after pacing moves
    let handed := handedOut ((Crew.start q workers stopped).history pacing moves)
    handed.map (·.2) ++ c.queue.transactions = q.transactions ∧
      (∀ party, ((handed.filter fun entry => entry.1 = party).map (·.2)).Sublist q.transactions) ∧
      (∀ condition t later, c.queue.popIf condition = (some t, later) ↔
        condition t = true ∧ c.queue.transactions = t :: later.transactions ∧
          c.queue.statements = later.statements) ∧
      (∀ condition later, c.queue.popIf condition = (none, later) ↔
        later = c.queue ∧ ∀ t, c.queue.front? = some t → condition t = false) ∧
      ((∀ w ∈ c.workers, w = .ended) →
        c.tally.total = handed.countP (·.1.isWorker) ∧
          ((∀ entry ∈ handed, entry.1.isWorker = true) →
            c.tally.total = q.length - c.queue.length) ∧
          (c.stopped = false → c.queue.transactions = [])) := by
  intro c handed
  have hshared := shared_after pacing q workers stopped moves
  refine ⟨hshared.handed, fun party => ?_, fun _ _ _ => Queue.popIf_eq_some_iff,
    fun _ _ => Queue.popIf_eq_none_iff, hshared.of_ended (Nat.le_max_right workers 1)⟩
  rw [← hshared.handed]
  exact (List.filter_sublist.map _).trans (List.sublist_append_left _ _)

/-- Three transactions without calls: one to commit, one that has not ended, and an implicit one. -/
def threeTransactions : Queue :=
  ⟨[⟨.explicit (some false), 0, []⟩, .explicit 0, ⟨.implicit, 0, []⟩], .empty⟩

/-- A worker takes the first, whose commit fails, and the last; a client the one between them. -/
def sharedMoves : List Move :=
  let worker (failure : Option String) : Move := ⟨0, .worker 0 0 ⟨failure, false⟩⟩
  [worker none, worker none, ⟨7, .pop⟩, worker none, worker none, worker (some "lost"),
    ⟨7, .front⟩, worker none, worker none, worker none, ⟨8, .popIf fun _ => true⟩, worker none,
    worker none]

theorem queue_shared_with_client :
    let c := (Crew.start threeTransactions 0 false).after ⟨false, .one⟩ sharedMoves
    c.tally = ⟨1, 0, 1, 0⟩ ∧
      handedOut ((Crew.start threeTransactions 0 false).history ⟨false, .one⟩ sharedMoves) =
        [(.worker 0, ⟨.explicit (some false), 0, []⟩), (.client 7, .explicit 0),
          (.worker 0, ⟨.implicit, 0, []⟩)] ∧
      c.tally.total = 2 ∧ c.queue.transactions = [] := by
  have hhanded : handedOut
      ((Crew.start threeTransactions 0 false).history ⟨false, .one⟩ sharedMoves) =
        [(.worker 0, ⟨.explicit (some false), 0, []⟩), (.client 7, .explicit 0),
          (.worker 0, ⟨.implicit, 0, []⟩)] := by decide
  have hworkers : ((Crew.start threeTransactions 0 false).after ⟨false, .one⟩ sharedMoves).workers =
      [.ended] := rfl
  obtain ⟨-, -, -, -, hended⟩ := queue_shared ⟨false, .one⟩ threeTransactions 0 false sharedMoves
  obtain ⟨htotal, -, hempty⟩ := hended (by rw [hworkers]; exact fun w => List.mem_singleton.mp)
  exact ⟨by decide, hhanded, by rw [htotal, hhanded]; rfl, hempty rfl⟩

end WorkloadReplay
