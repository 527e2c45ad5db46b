import WorkloadReplay.Proofs.PlayedStatements
import WorkloadReplay.Proofs.QueueSharing

/-!
# Blocks of transactions

All that a worker does is made of blocks, one for each transaction that it takes. An implicit
transaction makes a block of statements alone. An explicit one stands between a begin and a commit
or a rollback, unless its begin fails. It is committed exactly if all its statements have been
executed, no sign to stop has been seen, and it is not to be rolled back.
-/

namespace WorkloadReplay

/-- What a worker does about a transaction, from taking it to counting it. -/
structure Block where
  transaction : Transaction
  acts : List Act
  verdict : Verdict

def closingRequest (commit : Bool) : Request := if commit then .commit else .rollback

def bracketed (acts : List Act) (commit : Bool) (failure : Option String) : List Act :=
  .request .begin none :: (acts ++ [.request (closingRequest commit) failure])

namespace Block

def deeds (b : Block) : List Deed := .take b.transaction :: (b.acts.map .act ++ [.count b.verdict])

/-- The ways in which a block arises: from a begin that fails, from playing an implicit transaction,
and from playing an explicit one. -/
inductive Arises (table : StatementTable) : Block → Prop
  | refused {t : Transaction} (explicit : t.isExplicit = true) (reason : String) :
      Arises table ⟨t, [.request .begin (some reason)], .failed⟩
  | implicit {t : Transaction} {acts : List Act} {result : Except Fault Outcome}
      (implicit : t.isExplicit = false) (plays : Plays table t acts result) :
      Arises table ⟨t, acts, Worker.verdict result⟩
  | explicit {t : Transaction} {acts : List Act} {result : Except Fault Outcome} {commit : Bool}
      (explicit : t.isExplicit = true) (plays : Plays table t acts result)
      (commits : commit = true ↔ result = .ok .committed) (failure : Option String) :
      Arises table ⟨t, bracketed acts commit failure,
        if commit && failure.isSome then .failed else Worker.verdict result⟩

/-- What holds of a block of a transaction. -/
structure Sound (table : StatementTable) (b : Block) : Prop where
  /-- An implicit transaction asks for statements only. -/
  implicit : b.transaction.isExplicit = false → ∀ r ∈ requests b.acts, r.isExecute = true
  /-- An explicit transaction starts with a begin, which is all if it fails. Otherwise statements
  follow, and one commit or rollback ends it: a commit exactly if all statements were executed, no
  sign to stop was seen, and the transaction is not to be rolled back. -/
  explicit : b.transaction.isExplicit = true →
    (∃ reason, b.acts = [.request .begin (some reason)]) ∨
      ∃ play commit failure, b.acts = bracketed play commit failure ∧
        (∀ r ∈ requests play, r.isExecute = true) ∧
        (commit = true ↔
          Completed table b.transaction b.acts ∧ b.transaction.abort? = some false)
  /-- The statements are asked for in their order, from the first on. -/
  ordered : ((requests b.acts).filter (·.isExecute)).map some <+: asked table b.transaction.calls
  /-- No statement is asked for after a failure or after the sign to stop was seen. -/
  stops : ∀ before act after, b.acts = before ++ act :: after → act.fine = false →
    ∀ r ∈ requests after, r.isExecute = false
  /-- An explicit transaction is counted as committed exactly if its commit succeeded. -/
  explicit_committed : b.transaction.isExplicit = true →
    (b.verdict = .committed ↔ .request .commit none ∈ b.acts)
  /-- An implicit transaction is counted as committed exactly if all statements were executed and
  no sign to stop was seen. -/
  implicit_committed : b.transaction.isExplicit = false →
    (b.verdict = .committed ↔ Completed table b.transaction b.acts)
  /-- A transaction is counted as cancelled exactly if the sign to stop was seen in playing it. -/
  cancelled : b.verdict = .cancelled ↔ .look true ∈ b.acts
  /-- A transaction of which a statement was not executed, or that is to be rolled back, is never
  committed. -/
  safe : (b.verdict = .committed ∨ ∃ failure, .request .commit failure ∈ b.acts) →
    Completed table b.transaction b.acts ∧ b.transaction.abort? = some false

end Block

section

variable {table : StatementTable} {t : Transaction} {acts : List Act} {commit : Bool}
  {failure : Option String} {result : Except Fault Outcome}

theorem verdict_eq_committed_iff :
    Worker.verdict result = .committed ↔ result = .ok .committed := by
  cases result with
  | error fault => exact iff_of_false nofun nofun
  | ok outcome => cases outcome <;> simp [Worker.verdict]

theorem decide_committed_iff :
    decide (Worker.verdict result = .committed) = true ↔ result = .ok .committed :=
  decide_eq_true_iff.trans verdict_eq_committed_iff

theorem verdict_eq_cancelled_iff :
    Worker.verdict result = .cancelled ↔ result = .ok .cancelled := by
  cases result with
  | error fault => exact iff_of_false nofun nofun
  | ok outcome => cases outcome <;> simp [Worker.verdict]

theorem abort?_of_implicit (h : t.isExplicit = false) : t.abort? = some false := by
  unfold Transaction.isExplicit at h
  unfold Transaction.abort?
  split at h
  · rfl
  · cases h

theorem isExecute_closingRequest (commit : Bool) : (closingRequest commit).isExecute = false := by
  cases commit <;> rfl

theorem requests_bracketed :
    requests (bracketed acts commit failure) =
      .begin :: (requests acts ++ [closingRequest commit]) :=
  congrArg (List.cons Request.begin) (requests_append acts _)

theorem executed_bracketed : executed (bracketed acts commit failure) = executed acts := by
  rw [bracketed, executed, List.filterMap_cons_none rfl, ← executed, executed_append]
  cases commit <;> cases failure <;> exact List.append_nil _

theorem look_mem_bracketed :
    .look true ∈ bracketed acts commit failure ↔ Act.look true ∈ acts := by
  simp [bracketed]

theorem completed_bracketed :
    Completed table t (bracketed acts commit failure) ↔ Completed table t acts := by
  constructor
  · rintro ⟨hall, huncancelled⟩
    rw [executed_bracketed] at hall
    rw [look_mem_bracketed] at huncancelled
    exact ⟨hall, huncancelled⟩
  · rintro ⟨hall, huncancelled⟩
    refine ⟨?_, ?_⟩
    · rw [executed_bracketed, hall]
    · rwa [look_mem_bracketed]

theorem request_mem_requests {r : Request} (h : .request r failure ∈ acts) : r ∈ requests acts :=
  List.mem_filterMap.mpr ⟨_, h, rfl⟩

theorem commit_mem_bracketed_iff {failure' : Option String}
    (hacts : ∀ r ∈ requests acts, r.isExecute = true) :
    .request .commit failure' ∈ bracketed acts commit failure ↔
      commit = true ∧ failure' = failure := by
  have hcommit : .request .commit failure' ∉ acts := fun h =>
    absurd (hacts _ (request_mem_requests h)) nofun
  cases commit with
  | true => simp [bracketed, closingRequest, hcommit]
  | false => simp [bracketed, closingRequest, hcommit]

theorem after_eq_nil {before after : List Act} {act : Act} (h : ∀ a ∈ acts.dropLast, a.fine = true)
    (hacts : acts = before ++ act :: after) (hact : act.fine = false) : after = [] := by
  rcases List.eq_nil_or_concat' after with rfl | ⟨more, last, rfl⟩
  · rfl
  · have hmem : act ∈ acts.dropLast := by
      rw [hacts, ← List.cons_append, ← List.append_assoc, List.dropLast_concat]
      exact List.mem_append_right _ List.mem_cons_self
    rw [h act hmem] at hact
    cases hact

/-- In a bracket only its end can follow on what is not fine. -/
theorem not_isExecute_after_bracketed {before after : List Act} {act : Act}
    (h : ∀ a ∈ acts.dropLast, a.fine = true)
    (hacts : bracketed acts commit failure = before ++ act :: after) (hact : act.fine = false) :
    ∀ r ∈ requests after, r.isExecute = false := by
  cases before with
  | nil =>
    obtain ⟨rfl, -⟩ := List.cons.inj hacts
    cases hact
  | cons first before =>
    rcases List.eq_nil_or_concat' after with rfl | ⟨more, last, rfl⟩
    · exact nofun
    · rw [← List.cons_append, ← List.append_assoc] at hacts
      have hplayed := (List.cons.inj hacts).2
      obtain ⟨hplay, hlast⟩ := List.append_inj' hplayed rfl
      obtain rfl : more = [] := after_eq_nil h hplay hact
      obtain rfl := List.singleton_inj.mp hlast
      intro r hr
      rw [List.mem_singleton.mp hr]
      exact isExecute_closingRequest commit

end

namespace Block

variable {table : StatementTable} {b : Block}

theorem sound_refused {t : Transaction} (explicit : t.isExplicit = true) (reason : String) :
    Sound table ⟨t, [.request .begin (some reason)], .failed⟩ where
  implicit := fun h => absurd (explicit.symm.trans h) nofun
  explicit := fun _ => .inl ⟨reason, rfl⟩
  ordered := List.nil_prefix
  stops := by
    intro before act after hacts hact r hr
    have hfirst : ∀ a ∈ [Act.request .begin (some reason)].dropLast, a.fine = true := nofun
    rw [after_eq_nil hfirst hacts hact] at hr
    cases hr
  explicit_committed := fun _ => iff_of_false nofun (by simp)
  implicit_committed := fun h => absurd (explicit.symm.trans h) nofun
  cancelled := iff_of_false nofun (by simp)
  safe := by
    rintro (hverdict | ⟨failure, hcommit⟩)
    · cases hverdict
    · simp at hcommit

theorem sound_implicit {t : Transaction} {acts : List Act} {result : Except Fault Outcome}
    (implicit : t.isExplicit = false) (plays : Plays table t acts result) :
    Sound table ⟨t, acts, Worker.verdict result⟩ := by
  have habort := abort?_of_implicit implicit
  have hcommitted : Worker.verdict result = .committed ↔ Completed table t acts := by
    rw [verdict_eq_committed_iff, plays.committed]
    exact and_iff_left habort
  exact
    { implicit := fun _ => plays.execute
      explicit := fun h => absurd (implicit.symm.trans h) nofun
      ordered := by
        rw [List.filter_eq_self.mpr plays.execute]
        exact plays.ordered
      stops := by
        intro before act after hacts hact r hr
        rw [after_eq_nil plays.fine hacts hact] at hr
        cases hr
      explicit_committed := fun h => absurd (implicit.symm.trans h) nofun
      implicit_committed := fun _ => hcommitted
      cancelled := verdict_eq_cancelled_iff.trans plays.cancelled
      safe := by
        rintro (hverdict | ⟨failure, hcommit⟩)
        · exact ⟨hcommitted.mp hverdict, habort⟩
        · cases plays.execute _ (request_mem_requests hcommit) }

theorem sound_explicit {t : Transaction} {acts : List Act} {result : Except Fault Outcome}
    {commit : Bool} (explicit : t.isExplicit = true) (plays : Plays table t acts result)
    (commits : commit = true ↔ result = .ok .committed) (failure : Option String) :
    Sound table ⟨t, bracketed acts commit failure,
      if commit && failure.isSome then .failed else Worker.verdict result⟩ := by
  have hcommit : commit = true ↔
      Completed table t (bracketed acts commit failure) ∧ t.abort? = some false := by
    rw [commits, plays.committed, completed_bracketed]
  have hcommitted : (if commit && failure.isSome then .failed else Worker.verdict result) =
      Verdict.committed ↔ .request .commit none ∈ bracketed acts commit failure := by
    rw [commit_mem_bracketed_iff plays.execute]
    cases failure with
    | none => simp [verdict_eq_committed_iff, commits]
    | some reason =>
      refine iff_of_false (fun hverdict => ?_) nofun
      cases commit with
      | true => cases hverdict
      | false => cases commits.mpr (verdict_eq_committed_iff.mp hverdict)
  have hsafe {failure' : Option String}
      (hmem : .request .commit failure' ∈ bracketed acts commit failure) :=
    hcommit.mp ((commit_mem_bracketed_iff plays.execute).mp hmem).1
  exact
    { implicit := fun h => absurd (explicit.symm.trans h) nofun
      explicit := fun _ => .inr ⟨acts, commit, failure, rfl, plays.execute, hcommit⟩
      ordered := by
        have hbegin : ¬ Request.begin.isExecute = true := nofun
        rw [requests_bracketed, List.filter_cons_of_neg hbegin, List.filter_append,
          List.filter_eq_self.mpr plays.execute, List.filter_singleton,
          isExecute_closingRequest commit]
        simpa using plays.ordered
      stops := fun before act after => not_isExecute_after_bracketed plays.fine
      explicit_committed := fun _ => hcommitted
      implicit_committed := fun h => absurd (explicit.symm.trans h) nofun
      cancelled := by
        rw [look_mem_bracketed, ← plays.cancelled]
        cases commit with
        | true =>
          rw [commits.mp rfl]
          cases failure <;> exact iff_of_false nofun nofun
        | false => exact verdict_eq_cancelled_iff
      safe := by
        rintro (hverdict | ⟨failure', hmem⟩)
        · exact hsafe (hcommitted.mp hverdict)
        · exact hsafe hmem }

theorem Arises.sound (h : b.Arises table) : b.Sound table := by
  cases h with
  | refused explicit reason => exact sound_refused explicit reason
  | implicit implicit plays => exact sound_implicit implicit plays
  | explicit explicit plays commits failure => exact sound_explicit explicit plays commits failure

end Block

def opened (t : Transaction) : List Act := if t.isExplicit then [.request .begin none] else []

/-- How a worker stands to what it has done about the transaction that it has not counted yet. -/
inductive Pending (table : StatementTable) : Worker → List Deed → Prop
  | idle : Pending table .idle []
  | claiming : Pending table .claiming []
  | opening {t : Transaction} (explicit : t.isExplicit = true) :
      Pending table (.opening t) [.take t]
  | playing {t : Transaction} {acts : List Act} {p : Playback} (playing : Playing table t acts p) :
      Pending table (.playing t.isExplicit p) (.take t :: (opened t ++ acts).map .act)
  | closing {t : Transaction} {acts : List Act} {result : Except Fault Outcome} {commit : Bool}
      (explicit : t.isExplicit = true) (plays : Plays table t acts result)
      (commits : commit = true ↔ result = .ok .committed) :
      Pending table (.closing commit (Worker.verdict result))
        (.take t :: (.request .begin none :: acts).map .act)
  | ended : Pending table .ended []

section

variable {table : StatementTable} {w : Worker} {q : Queue} {pending : List Deed} {t : Transaction}

theorem pending_opened (explicit : t.isExplicit = true) (now : Nat) :
    Pending table (.playing true (.start now t)) [.take t, .act (.request .begin none)] := by
  have hstart : Playing table t [] (.start now t) := playing_start now t
  have h := Pending.playing hstart
  rwa [opened, explicit] at h

theorem pending_taken (now : Nat) (t : Transaction) :
    Pending table (if t.isExplicit then .opening t else .playing false (.start now t))
      [.take t] := by
  cases hexplicit : t.isExplicit with
  | true => exact .opening hexplicit
  | false =>
    have hstart : Playing table t [] (.start now t) := playing_start now t
    have h := Pending.playing hstart
    rwa [opened, hexplicit] at h

theorem Pending.step (h : Pending q.statements w pending) (pacing : Pacing) (now : Nat)
    (stopped : Bool) (failure : Option String) :
    Pending q.statements (w.step pacing now stopped failure q).1
        (pending ++ w.deeds pacing now stopped failure q) ∨
      (w.step pacing now stopped failure q).1 = .idle ∧
        ∃ b : Block, b.Arises q.statements ∧
          pending ++ w.deeds pacing now stopped failure q = b.deeds := by
  cases h with
  | idle =>
    left
    cases stopped with
    | true => exact .ended
    | false => exact .claiming
  | claiming =>
    left
    obtain ⟨transactions, statements⟩ := q
    cases transactions with
    | nil => exact .ended
    | cons t ts =>
      exact pending_taken now t
  | @opening t explicit =>
    cases failure with
    | some reason => exact .inr ⟨rfl, _, .refused explicit reason, rfl⟩
    | none =>
      exact .inl (pending_opened explicit now)
  | @playing t acts p playing =>
    have hstep := playing.step pacing now stopped failure
    rw [Worker.deeds_playing]
    cases hresult : (p.step pacing q.statements now stopped failure).result? with
    | none =>
      left
      rw [Worker.step_playing_of_result?_eq_none hresult]
      simpa using Pending.playing hstep
    | some result =>
      have hplays := hstep.plays hresult
      rw [Worker.step_playing_of_result?_eq_some hresult]
      cases hexplicit : t.isExplicit with
      | true =>
        left
        have hclosing := Pending.closing hexplicit hplays decide_committed_iff
        simpa [opened, hexplicit, Worker.settle] using hclosing
      | false =>
        right
        refine ⟨rfl, _, .implicit hexplicit hplays, ?_⟩
        simp [Block.deeds, opened, hexplicit, Worker.settle]
  | @closing t acts result commit explicit plays commits =>
    right
    refine ⟨rfl, _, .explicit explicit plays commits failure, ?_⟩
    simp [Worker.deeds_closing, Block.deeds, bracketed, closingRequest]
  | ended => exact .inl .ended

/-- What has been done about a transaction that is not counted yet is the start of a block. -/
theorem Pending.exists_block (h : Pending table w pending) :
    ∃ b : Block, b.Arises table ∧ pending <+: b.deeds := by
  have hany : ∃ b : Block, b.Arises table := ⟨_, .refused (t := .explicit 0) rfl ""⟩
  cases h with
  | idle => exact hany.imp fun b hb => ⟨hb, List.nil_prefix⟩
  | claiming => exact hany.imp fun b hb => ⟨hb, List.nil_prefix⟩
  | ended => exact hany.imp fun b hb => ⟨hb, List.nil_prefix⟩
  | opening explicit => exact ⟨_, .refused explicit "", _, rfl⟩
  | @playing t acts p playing =>
    obtain ⟨more, result, hplays⟩ := playing.exists_plays
    cases hexplicit : t.isExplicit with
    | true =>
      refine ⟨_, .explicit hexplicit hplays decide_committed_iff none, ?_⟩
      simp [Block.deeds, bracketed, opened, hexplicit]
    | false =>
      refine ⟨_, .implicit hexplicit hplays, ?_⟩
      simp [Block.deeds, opened, hexplicit]
  | closing explicit plays commits =>
    refine ⟨_, .explicit explicit plays commits none, ?_⟩
    simp [Block.deeds, bracketed]

theorem Pending.eq_nil (h : Pending table w pending) (hw : w.busy = false) : pending = [] := by
  cases h with
  | idle => rfl
  | claiming => rfl
  | ended => rfl
  | opening explicit => cases hw
  | playing playing => cases hw
  | closing explicit plays commits => cases hw

/-- What a worker has done is made of blocks and of what it has not counted yet. -/
def MadeOfBlocks (table : StatementTable) (deeds : List Deed) (worker : Option Worker) : Prop :=
  ∃ (blocks : List Block) (pending : List Deed), deeds = blocks.flatMap Block.deeds ++ pending ∧
    (∀ b ∈ blocks, b.Arises table) ∧ worker.elim (pending = []) (Pending table · pending)

theorem MadeOfBlocks.step {deeds : List Deed} (h : MadeOfBlocks q.statements deeds (some w))
    (pacing : Pacing) (now : Nat) (stopped : Bool) (failure : Option String) :
    MadeOfBlocks q.statements (deeds ++ w.deeds pacing now stopped failure q)
      (some (w.step pacing now stopped failure q).1) := by
  obtain ⟨blocks, pending, rfl, harises, hpending⟩ := h
  rw [List.append_assoc]
  rcases hpending.step pacing now stopped failure with hgoes | ⟨hidle, b, hb, hends⟩
  · exact ⟨blocks, _, rfl, harises, hgoes⟩
  · refine ⟨blocks ++ [b], [], ?_, ?_, ?_⟩
    · rw [hends, List.flatMap_append, List.flatMap_singleton, List.append_nil]
    · intro b' hb'
      rcases List.mem_append.mp hb' with hb' | hb'
      · exact harises b' hb'
      · rwa [List.mem_singleton.mp hb']
    · rw [hidle]
      exact .idle

end

section

variable {pacing : Pacing} {table : StatementTable} {index : Nat} {c : Crew}
  {history : List (Party × Deed)}

theorem madeOfBlocks_start (table : StatementTable) (workers index : Nat) :
    MadeOfBlocks table [] (List.replicate workers Worker.idle)[index]? := by
  refine ⟨[], [], rfl, nofun, ?_⟩
  rw [List.getElem?_replicate]
  split
  · exact .idle
  · rfl

theorem madeOfBlocks_step (hstatements : c.queue.statements = table)
    (h : MadeOfBlocks table (deedsOf (.worker index) history) c.workers[index]?) (m : Move) :
    MadeOfBlocks table
      (deedsOf (.worker index) (history ++ (c.deeds pacing m.turn).map (m.party, ·)))
      (c.step pacing m.turn).workers[index]? := by
  rw [deedsOf_append]
  cases c.concerns pacing m index with
  | own now reaction w party worker deeds after =>
    rw [worker, ← hstatements] at h
    rw [deeds, after, ← hstatements]
    exact h.step pacing now c.stopped reaction.failure
  | other party deeds after => rwa [deeds, after, List.append_nil]

end

/-- All that a worker does is made of blocks of one transaction each, in the order in which it takes
them, and of the start of one that it has not counted yet; and the tally is of what is counted. -/
theorem deedsOf_worker_eq_blocks (pacing : Pacing) (q : Queue) (workers : Nat) (stopped : Bool)
    (moves : List Move) :
    let c := (Crew.start q workers stopped).after pacing moves
    let history := (Crew.start q workers stopped).history pacing moves
    c.tally = (verdicts history).foldl Tally.count .zero ∧
      ∀ index, ∃ (blocks : List Block) (pending : List Deed),
        deedsOf (.worker index) history = blocks.flatMap Block.deeds ++ pending ∧
          (∀ b ∈ blocks, b.Sound q.statements) ∧
            (∃ b : Block, b.Sound q.statements ∧ pending <+: b.deeds) ∧
              ((∀ w, c.workers[index]? = some w → w.busy = false) → pending = []) := by
  intro c history
  refine ⟨Crew.tally_after _ moves, fun index => ?_⟩
  obtain ⟨-, blocks, pending, hdeeds, harises, hpending⟩ :
      c.queue.statements = q.statements ∧
        MadeOfBlocks q.statements (deedsOf (.worker index) history) c.workers[index]? := by
    refine Crew.history_induction (P := fun c history => c.queue.statements = q.statements ∧
      MadeOfBlocks q.statements (deedsOf (.worker index) history) c.workers[index]?) ?_ ?_ moves
    · rintro c history m ⟨hstatements, hblocks⟩
      exact ⟨by rw [c.statements_step, hstatements], madeOfBlocks_step hstatements hblocks m⟩
    · exact ⟨rfl, madeOfBlocks_start q.statements _ index⟩
  have hsound : ∀ b ∈ blocks, b.Sound q.statements := fun b hb => (harises b hb).sound
  cases hw : c.workers[index]? with
  | none =>
    rw [hw] at hpending
    have hidle : Pending q.statements .idle [] := .idle
    obtain ⟨b, hb, -⟩ := hidle.exists_block
    refine ⟨blocks, pending, hdeeds, hsound, ⟨b, hb.sound, ?_⟩, fun _ => hpending⟩
    rw [show pending = [] from hpending]
    exact List.nil_prefix
  | some w =>
    rw [hw] at hpending
    obtain ⟨b, hb, hstart⟩ := Pending.exists_block hpending
    exact ⟨blocks, pending, hdeeds, hsound, ⟨b, hb.sound, hstart⟩,
      fun hbusy => Pending.eq_nil hpending (hbusy w rfl)⟩

def insertTransaction : Transaction :=
  ⟨.explicit (some false), 0, [.ofStatement (.interned 3) [] 5, .ofEnd 8]⟩

def insertQueue : Queue := ⟨[insertTransaction], ⟨[(3, "INSERT")], #[]⟩⟩

/-- A worker whose requests do not fail makes one block of the transaction, which is committed. -/
theorem deedsOf_worker_eq_blocks_insert :
    let moves : List Move := List.replicate 10 ⟨0, .worker 0 0 ⟨none, false⟩⟩
    ∃ blocks : List Block,
      [.take insertTransaction, .act (.request .begin none), .act (.look false),
        .act (.request (.execute (.interned 3) "INSERT" []) none), .act (.look false),
        .act (.request .commit none), .count .committed] = blocks.flatMap Block.deeds ∧
      (∀ b ∈ blocks, b.Sound insertQueue.statements) ∧
      ((Crew.start insertQueue 1 false).after ⟨false, .one⟩ moves).tally = ⟨1, 0, 0, 0⟩ := by
  intro moves
  have hdeeds : deedsOf (.worker 0) ((Crew.start insertQueue 1 false).history ⟨false, .one⟩ moves) =
      [.take insertTransaction, .act (.request .begin none), .act (.look false),
        .act (.request (.execute (.interned 3) "INSERT" []) none), .act (.look false),
        .act (.request .commit none), .count .committed] := by decide
  have hworkers : ((Crew.start insertQueue 1 false).after ⟨false, .one⟩ moves).workers =
      [.ended] := rfl
  obtain ⟨-, hblocks⟩ := deedsOf_worker_eq_blocks ⟨false, .one⟩ insertQueue 1 false moves
  obtain ⟨blocks, pending, hall, hsound, -, hbusy⟩ := hblocks 0
  have hpending : pending = [] := by
    refine hbusy fun w hw => ?_
    rw [hworkers] at hw
    cases hw
    rfl
  rw [hdeeds, hpending, List.append_nil] at hall
  exact ⟨blocks, hall, hsound, by decide⟩

end WorkloadReplay
