import WorkloadReplay.Proofs.QueueSharing
import WorkloadReplay.Replay.Simulation

/-!
# Runs on a clock

A run of workers on a clock is one of the orders in which turns can come. It ends with all workers
ended: each step leaves less work. So what holds of a crew that has ended holds of what running
workers comes to.
-/

namespace WorkloadReplay

namespace Queue

/-- The steps that the transactions of a queue take at most. -/
def work (q : Queue) : Nat := q.transactions.foldr (fun t steps => t.work + steps) 0

theorem work_cons (t : Transaction) (ts : List Transaction) (statements : StatementTable) :
    (⟨t :: ts, statements⟩ : Queue).work = t.work + (⟨ts, statements⟩ : Queue).work := rfl

end Queue

theorem Playback.result?_eq_none_of_step {pacing : Pacing} {table : StatementTable} {now : Nat}
    {stopped : Bool} {failure : Option String} {p : Playback}
    (h : (p.step pacing table now stopped failure).result? = none) : p.result? = none := by
  obtain ⟨started, remaining, executed, phase⟩ := p
  cases phase with
  | ended result => cases h
  | next => rfl
  | waiting call => rfl
  | issuing key sql params => rfl

namespace Worker

variable {pacing : Pacing} {now : Nat} {stopped : Bool} {q : Queue} {w : Worker}

theorem work_playing (explicit : Bool) (p : Playback) :
    (playing explicit p).work = 4 + p.work := rfl

theorem work_settle_le (explicit : Bool) (verdict : Verdict) :
    (settle explicit verdict).1.work ≤ 3 := by
  cases explicit with
  | true => exact Nat.le_refl 3
  | false => exact Nat.le_succ 2

theorem work_step_lt (failure : Option String) (hw : w ≠ .ended)
    (hready : stopped = true ∨ ∀ time ∈ w.wakeTime? pacing, time ≤ now) :
    (w.step pacing now stopped failure q).1.work +
        (w.step pacing now stopped failure q).2.1.work < w.work + q.work := by
  cases w with
  | idle => cases stopped <;> simp [step, work]
  | claiming =>
    obtain ⟨transactions, statements⟩ := q
    cases transactions with
    | nil => simp [step, work]
    | cons t ts =>
      simp only [step, Queue.pop_cons, Queue.work_cons]
      cases t.isExplicit with
      | true => simp [work]
      | false =>
        simp only [Bool.false_eq_true, if_false, work, Playback.work, Playback.start,
          Transaction.work]
        omega
  | opening t =>
    cases failure with
    | some reason => simp [step, work, Transaction.work]
    | none =>
      simp only [step, work, Playback.work, Playback.start, Transaction.work]
      omega
  | playing explicit p =>
    cases hresult : (p.step pacing q.statements now stopped failure).result? with
    | none =>
      have hlt : (p.step pacing q.statements now stopped failure).work < p.work :=
        Playback.work_step_lt (Playback.result?_eq_none_of_step hresult) hready
      rw [step_playing_of_result?_eq_none hresult]
      dsimp only
      rw [work_playing, work_playing]
      omega
    | some result =>
      rw [step_playing_of_result?_eq_some hresult]
      have hle := work_settle_le explicit (verdict result)
      dsimp only
      rw [work_playing]
      omega
  | closing commit verdict => simp [step, work]
  | ended => exact absurd rfl hw

end Worker

namespace Crew

variable {pacing : Pacing} {c : Crew} {now index time : Nat}

theorem work_eq (c : Crew) :
    c.work = c.queue.work + c.workers.foldr (fun w n => w.work + n) 0 := rfl

def better (pacing : Pacing) (c : Crew) (now : Nat) (best : Option (Nat × Nat))
    (entry : Worker × Nat) : Option (Nat × Nat) :=
  match c.readyTime? pacing now entry.1, best with
  | none, _ => best
  | some time, none => some (entry.2, time)
  | some time, some (_, least) => if time < least then some (entry.2, time) else best

theorem nextReady?_eq_foldl (pacing : Pacing) (c : Crew) (now : Nat) :
    c.nextReady? pacing now = c.workers.zipIdx.foldl (c.better pacing now) none := rfl

theorem better_eq_none_iff {best : Option (Nat × Nat)} {entry : Worker × Nat} :
    c.better pacing now best entry = none ↔
      best = none ∧ c.readyTime? pacing now entry.1 = none := by
  unfold better
  cases c.readyTime? pacing now entry.1 with
  | none => simp
  | some time =>
    cases best with
    | none => simp
    | some best =>
      dsimp only
      split <;> simp

theorem better_eq_some {best : Option (Nat × Nat)} {entry : Worker × Nat}
    (h : c.better pacing now best entry = some (index, time)) :
    best = some (index, time) ∨ entry.2 = index ∧ c.readyTime? pacing now entry.1 = some time := by
  unfold better at h
  cases hready : c.readyTime? pacing now entry.1 with
  | none =>
    rw [hready] at h
    exact .inl h
  | some time' =>
    rw [hready] at h
    cases best with
    | none =>
      cases h
      exact .inr ⟨rfl, rfl⟩
    | some best =>
      dsimp only at h
      split at h
      · cases h
        exact .inr ⟨rfl, rfl⟩
      · exact .inl h

theorem foldl_better_eq_none {best : Option (Nat × Nat)} {entries : List (Worker × Nat)}
    (h : entries.foldl (c.better pacing now) best = none) :
    best = none ∧ ∀ entry ∈ entries, c.readyTime? pacing now entry.1 = none := by
  induction entries generalizing best with
  | nil => exact ⟨h, List.forall_mem_nil _⟩
  | cons entry entries ih =>
    obtain ⟨hbetter, hentries⟩ := ih h
    obtain ⟨hbest, hentry⟩ := better_eq_none_iff.mp hbetter
    exact ⟨hbest, List.forall_mem_cons.mpr ⟨hentry, hentries⟩⟩

theorem foldl_better_eq_some {best : Option (Nat × Nat)} {entries : List (Worker × Nat)}
    (h : entries.foldl (c.better pacing now) best = some (index, time)) :
    best = some (index, time) ∨
      ∃ w, (w, index) ∈ entries ∧ c.readyTime? pacing now w = some time := by
  induction entries generalizing best with
  | nil => exact .inl h
  | cons entry entries ih =>
    rcases ih h with hbetter | ⟨w, hmem, hready⟩
    · rcases better_eq_some hbetter with hbest | ⟨rfl, hready⟩
      · exact .inl hbest
      · exact .inr ⟨entry.1, List.mem_cons_self, hready⟩
    · exact .inr ⟨w, List.mem_cons_of_mem entry hmem, hready⟩

/-- The worker that is to make the next step is ready for it. -/
theorem exists_of_nextReady?_eq_some (h : c.nextReady? pacing now = some (index, time)) :
    ∃ w, c.workers[index]? = some w ∧ c.readyTime? pacing now w = some time := by
  rw [nextReady?_eq_foldl] at h
  rcases foldl_better_eq_some h with hnone | ⟨w, hmem, hready⟩
  · cases hnone
  · exact ⟨w, List.mem_zipIdx_iff_getElem?.mp hmem, hready⟩

/-- If no worker is to make a step, all have ended. -/
theorem ended_of_nextReady?_eq_none (h : c.nextReady? pacing now = none) :
    ∀ w ∈ c.workers, w = .ended := by
  intro w hw
  rw [nextReady?_eq_foldl] at h
  obtain ⟨index, hindex⟩ := List.getElem?_of_mem hw
  have hready := (foldl_better_eq_none h).2 (w, index) (List.mem_zipIdx_iff_getElem?.mpr hindex)
  cases w with
  | ended => rfl
  | idle => cases hready
  | claiming => cases hready
  | opening t => cases hready
  | playing explicit p => cases hready
  | closing commit verdict => cases hready

theorem readyTime?_eq {w : Worker} (hw : w ≠ .ended) :
    c.readyTime? pacing now w =
      some (if c.stopped then now else max now ((w.wakeTime? pacing).getD now)) := by
  cases w with
  | ended => exact absurd rfl hw
  | idle => rfl
  | claiming => rfl
  | opening t => rfl
  | playing explicit p => rfl
  | closing commit verdict => rfl

theorem ready_of_readyTime? {w : Worker} (h : c.readyTime? pacing now w = some time) :
    w ≠ .ended ∧ (c.stopped = true ∨ ∀ t ∈ w.wakeTime? pacing, t ≤ time) := by
  have hended : w ≠ .ended := by
    rintro rfl
    cases h
  refine ⟨hended, ?_⟩
  cases hstopped : c.stopped with
  | true => exact .inl rfl
  | false =>
    right
    intro t ht
    rw [readyTime?_eq hended, hstopped, Option.mem_def.mp ht] at h
    cases h
    exact Nat.le_max_right now t

theorem work_stepWorker_lt {w : Worker} (hw : c.workers[index]? = some w)
    (hready : c.readyTime? pacing now w = some time) (reaction : Reaction) :
    (c.stepWorker pacing index time reaction).work < c.work := by
  obtain ⟨hended, hwake⟩ := ready_of_readyTime? hready
  have hstep := Worker.work_step_lt (q := c.queue) reaction.failure hended hwake
  have hset := foldr_set_add (f := Worker.work)
    (b := (w.step pacing time c.stopped reaction.failure c.queue).1) hw
  rw [stepWorker_of_getElem? hw, work_eq, work_eq]
  dsimp only
  omega

end Crew

namespace Simulation

variable {σ : Type} {executor : Executor σ} {pacing : Pacing} {s s' : Simulation σ}

def work (s : Simulation σ) : Nat := s.crew.work + s.stopAt.toList.length

theorem stepWorker_eq (executor : Executor σ) (pacing : Pacing) (s : Simulation σ)
    (index time : Nat) :
    (∃ reaction, (s.stepWorker executor pacing index time).crew =
        s.crew.stepWorker pacing index time reaction) ∧
      (s.stepWorker executor pacing index time).stopAt = s.stopAt := by
  unfold stepWorker
  dsimp only
  split
  · exact ⟨⟨_, rfl⟩, rfl⟩
  · exact ⟨⟨⟨none, false⟩, rfl⟩, rfl⟩

/-- A step of a run is a turn of a worker or the giving of the sign to stop, and leaves less
work. -/
theorem step?_eq_some (h : s.step? executor pacing = some s') :
    s'.work < s.work ∧ ∃ turn, s'.crew = s.crew.step pacing turn ∧
      (turn = .stop ∨ ∃ index time reaction, turn = .worker index time reaction) := by
  unfold step? at h
  cases hready : s.crew.nextReady? pacing s.now with
  | none =>
    rw [hready] at h
    cases h
  | some next =>
    obtain ⟨index, time⟩ := next
    rw [hready] at h
    obtain ⟨w, hw, htime⟩ := Crew.exists_of_nextReady?_eq_some hready
    have hworker (hs' : s.stepWorker executor pacing index time = s') :
        s'.work < s.work ∧ ∃ turn, s'.crew = s.crew.step pacing turn ∧
          (turn = .stop ∨ ∃ index time reaction, turn = .worker index time reaction) := by
      obtain ⟨⟨reaction, hcrew⟩, hstopAt⟩ := stepWorker_eq executor pacing s index time
      rw [hs'] at hcrew hstopAt
      refine ⟨?_, .worker index time reaction, hcrew, .inr ⟨index, time, reaction, rfl⟩⟩
      have hlt := Crew.work_stepWorker_lt hw htime reaction
      rw [work, work, hcrew, hstopAt]
      omega
    cases hstopAt : s.stopAt with
    | none =>
      rw [hstopAt] at h
      exact hworker (Option.some.inj h)
    | some stop =>
      rw [hstopAt] at h
      dsimp only at h
      split at h
      · obtain rfl := Option.some.inj h
        refine ⟨?_, .stop, rfl, .inl rfl⟩
        rw [work, work, hstopAt]
        exact Nat.lt_succ_self s.crew.work
      · exact hworker (Option.some.inj h)

theorem ended_of_step?_eq_none (h : s.step? executor pacing = none) :
    ∀ w ∈ s.crew.workers, w = .ended := by
  cases hready : s.crew.nextReady? pacing s.now with
  | none => exact Crew.ended_of_nextReady?_eq_none hready
  | some next =>
    unfold step? at h
    rw [hready] at h
    dsimp only at h
    split at h
    · split at h <;> cases h
    · cases h

/-- The steps of a run are turns of its workers and of the sign to stop, and if they are as many as
it takes at most, all workers have ended after them. -/
theorem exists_moves (executor : Executor σ) (pacing : Pacing) (n : Nat) (s : Simulation σ) :
    ∃ moves : List Move, (s.steps executor pacing n).crew = s.crew.after pacing moves ∧
      (∀ m ∈ moves, m.turn = .stop ∨ ∃ index time reaction, m.turn = .worker index time reaction) ∧
        (s.work ≤ n → ∀ w ∈ (s.steps executor pacing n).crew.workers, w = .ended) := by
  induction n generalizing s with
  | zero =>
    refine ⟨[], rfl, nofun, fun hwork => ?_⟩
    cases hstep : s.step? executor pacing with
    | none => exact ended_of_step?_eq_none hstep
    | some s' => exact absurd (step?_eq_some hstep).1 (by omega)
  | succ n ih =>
    rw [steps]
    cases hstep : s.step? executor pacing with
    | none => exact ⟨[], rfl, nofun, fun _ => ended_of_step?_eq_none hstep⟩
    | some s' =>
      obtain ⟨hwork, turn, hcrew, hturn⟩ := step?_eq_some hstep
      obtain ⟨moves, hafter, hmoves, hended⟩ := ih s'
      refine ⟨⟨0, turn⟩ :: moves, ?_, List.forall_mem_cons.mpr ⟨hturn, hmoves⟩,
        fun h => hended (by omega)⟩
      rw [hafter, hcrew]
      rfl

end Simulation

/-- In turns of workers and of the sign to stop only workers take transactions. -/
theorem isWorker_of_mem_handedOut {pacing : Pacing} {c : Crew} {moves : List Move}
    (hmoves : ∀ m ∈ moves,
      m.turn = .stop ∨ ∃ index time reaction, m.turn = .worker index time reaction) :
    ∀ entry ∈ handedOut (c.history pacing moves), entry.1.isWorker = true := by
  induction moves generalizing c with
  | nil => exact nofun
  | cons m moves ih =>
    obtain ⟨hm, hmoves⟩ := List.forall_mem_cons.mp hmoves
    intro entry hentry
    rw [Crew.history, handedOut_append, handedOut_map] at hentry
    rcases List.mem_append.mp hentry with hentry | hentry
    · obtain ⟨client, turn⟩ := m
      obtain ⟨t, ht, rfl⟩ := List.mem_map.mp hentry
      rcases hm with rfl | ⟨index, time, reaction, rfl⟩
      · cases ht
      · rfl
    · exact ih hmoves entry hentry

/-- Running workers ends, and then they have counted all that has been taken from the queue, which
is all there was unless the sign to stop was given. -/
theorem runWorkers_counts_all {σ : Type} (executor : Executor σ) (initial : σ) (pacing : Pacing)
    (clock : StopClock) (workers : Nat) (q : Queue) :
    let report := runWorkers executor initial pacing clock workers q
    report.tally.total = q.length - report.queue.length ∧
      (report.stopped = false → report.queue.transactions = []) := by
  intro report
  let crew := Crew.start q workers clock.stopped
  let start : Simulation σ :=
    ⟨crew, clock.now, clock.stopAt, crew.workers.map fun _ => initial, []⟩
  let final := (start.steps executor pacing (crew.work + 1)).crew
  obtain ⟨moves, hcrew, hmoves, hended⟩ := start.exists_moves executor pacing (crew.work + 1)
  have hwork : start.work ≤ crew.work + 1 := by
    have hstop : clock.stopAt.toList.length ≤ 1 := by cases clock.stopAt <;> simp
    exact Nat.add_le_add_left hstop crew.work
  have hshared : Shared q (max workers 1) final (crew.history pacing moves) := by
    rw [show final = crew.after pacing moves from hcrew]
    exact shared_after pacing q workers clock.stopped moves
  obtain ⟨-, htotal, hempty⟩ := hshared.of_ended (Nat.le_max_right workers 1) (hended hwork)
  have hreport : report.tally = final.tally ∧ report.queue = final.queue ∧
      report.stopped = final.stopped := ⟨rfl, rfl, rfl⟩
  rw [hreport.1, hreport.2.1, hreport.2.2]
  exact ⟨htotal (isWorker_of_mem_handedOut hmoves), hempty⟩

end WorkloadReplay
