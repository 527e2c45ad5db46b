import WorkloadReplay.Proofs.LoadPlanning

/-!
# The life of a manager

Whatever is asked of a manager, and however others change the files meanwhile: until a load has
succeeded it is like a new one, and then it keeps the queue of that load, gives its transactions one
after the other and is never loaded again.
-/

namespace WorkloadReplay.Manager

/-- What is asked of a manager, or a change of the files by others. -/
inductive Event where
  | load
  | isLoaded
  | peek
  | pop
  | statements
  | change (files : FileSystem)

inductive Answer where
  | load (result : Except Fault Queue)
  | isLoaded (loaded : Bool)
  | peek (result : Except Fault (Option Transaction))
  | pop (result : Except Fault (Option Transaction))
  | statements (result : Except Fault StatementTable)
  | change
  deriving DecidableEq

structure Session where
  manager : Manager
  files : FileSystem

namespace Session

def step (s : Session) : Event → Session × Answer
  | .load =>
    match s.manager.load s.files with
    | (files, .error fault) => (⟨s.manager, files⟩, .load (.error fault))
    | (files, .ok (manager, queue)) => (⟨manager, files⟩, .load (.ok queue))
  | .isLoaded => (s, .isLoaded s.manager.isLoaded)
  | .peek => (s, .peek s.manager.peek)
  | .pop =>
    match s.manager.pop with
    | .error fault => (s, .pop (.error fault))
    | .ok (t, manager) => ({ s with manager := manager }, .pop (.ok t))
  | .statements => (s, .statements s.manager.statements)
  | .change files => ({ s with files := files }, .change)

def run (s : Session) : List Event → Session × List Answer
  | [] => (s, [])
  | event :: events =>
    (((s.step event).1.run events).1, (s.step event).2 :: ((s.step event).1.run events).2)

end Session

def Answer.queue? : Answer → Option Queue
  | .load (.ok queue) => some queue
  | _ => none

def Answer.popped? : Answer → Option (Option Transaction)
  | .pop (.ok t) => some t
  | _ => none

def queues (answers : List Answer) : List Queue := answers.filterMap Answer.queue?

def pops (answers : List Answer) : List (Option Transaction) := answers.filterMap Answer.popped?

/-- A session in which no load has succeeded. -/
structure Session.Unloaded (m : Manager) (answers : List Answer) (s : Session) : Prop where
  queues : queues answers = []
  pops : pops answers = []
  /-- The manager is as it was at first, so the next load goes as the first one would now. -/
  manager : s.manager = m
  isLoaded : s.step .isLoaded = (s, .isLoaded false)
  peek : s.step .peek = (s, .peek (.error .notLoaded))
  pop : s.step .pop = (s, .pop (.error .notLoaded))
  statements : s.step .statements = (s, .statements (.error .notLoaded))
  load : ∀ log trace, s.files.modified? m.config.logPath = .ok log →
    s.files.modified? m.tracePath = .ok trace → s.manager.LoadsByTimes s.files log trace
  failed : ∀ later fault, s.step .load = (later, .load (.error fault)) → later.manager = m

/-- A session in which a load has given a queue: since then pops have given its transactions in
order, and then none. -/
structure Session.Loaded (queue : Queue) (answers : List Answer) (s : Session) : Prop where
  queues : queues answers = [queue]
  pops : pops answers = (List.range (pops answers).length).map (queue.transactions[·]?)
  isLoaded : s.step .isLoaded = (s, .isLoaded true)
  peek : s.step .peek = (s, .peek (.ok queue.transactions[(Manager.pops answers).length]?))
  pop : (s.step .pop).2 = .pop (.ok queue.transactions[(Manager.pops answers).length]?) ∧
    (s.step .pop).1.files = s.files
  statements : s.step .statements = (s, .statements (.ok queue.statements))
  /-- Another load changes no file. -/
  load : s.step .load = (s, .load (.error .alreadyLoaded))

/-- The queue after so many transactions have been taken. -/
def rest (queue : Queue) (taken : Nat) : Queue :=
  ⟨queue.transactions.drop taken, queue.statements⟩

/-- The state of a session by the answers so far. -/
inductive Life (m : Manager) (answers : List Answer) : Session → Prop
  | unloaded {files : FileSystem} (hqueues : queues answers = []) (hpops : pops answers = []) :
      Life m answers ⟨m, files⟩
  | loaded {files : FileSystem} {queue : Queue} (hqueues : queues answers = [queue])
      (hpops : pops answers = (List.range (pops answers).length).map (queue.transactions[·]?)) :
      Life m answers ⟨{ m with queue := some (rest queue (pops answers).length) }, files⟩

section

variable {m : Manager} {answers : List Answer} {s : Session} {queue : Queue}

theorem front?_rest (queue : Queue) (taken : Nat) :
    (rest queue taken).front? = queue.transactions[taken]? := List.head?_drop

theorem pop_rest (queue : Queue) (taken : Nat) :
    (rest queue taken).pop = (queue.transactions[taken]?, rest queue (taken + 1)) := by
  rw [Queue.pop, front?_rest, rest, rest, List.tail_drop]

theorem Life.append (h : Life m answers s) {answer : Answer} (hqueue : answer.queue? = none)
    (hpopped : answer.popped? = none) (files : FileSystem) :
    Life m (answers ++ [answer]) ⟨s.manager, files⟩ := by
  have hqueues : queues (answers ++ [answer]) = queues answers := by
    simp [queues, hqueue]
  have hpops : pops (answers ++ [answer]) = pops answers := by
    simp [pops, hpopped]
  cases h with
  | unloaded hqueues' hpops' => exact .unloaded (hqueues.trans hqueues') (hpops.trans hpops')
  | loaded hqueues' hpops' =>
    have hlife : Life m (answers ++ [answer]) ⟨{ m with queue := some (rest _ _) }, files⟩ :=
      .loaded (hqueues.trans hqueues') (by rw [hpops]; exact hpops')
    rwa [hpops] at hlife

theorem load_eq_ok {manager : Manager} {fs later : FileSystem} (h : m.queue = none)
    (hload : m.load fs = (later, .ok (manager, queue))) :
    manager = { m with queue := some queue } := by
  rw [load_eq h] at hload
  split at hload
  · cases hload
  · unfold loadTrace at hload
    rename_i later' _
    cases hpath : loadPath later' m.tracePath m.config.capacity with
    | error fault =>
      rw [hpath] at hload
      cases hload
    | ok found =>
      rw [hpath] at hload
      cases hload
      rfl

theorem pop_of_rest (m : Manager) (queue : Queue) (taken : Nat) :
    ({ m with queue := some (rest queue taken) } : Manager).pop =
      .ok (queue.transactions[taken]?, { m with queue := some (rest queue (taken + 1)) }) := by
  have hpop := pop_rest queue taken
  rw [pop, loaded, Except.map]
  simp only [hpop]

theorem Life.load (h : Life m answers s) (hm : m.queue = none) :
    Life m (answers ++ [(s.step .load).2]) (s.step .load).1 := by
  have hlife := h
  cases h with
  | @unloaded files hqueues hpops =>
    unfold Session.step
    cases hload : m.load files with
    | mk later answer =>
      cases answer with
      | error fault => exact hlife.append rfl rfl later
      | ok found =>
        obtain ⟨manager, queue⟩ := found
        obtain rfl := load_eq_ok hm hload
        have hqueues' : queues (answers ++ [.load (.ok queue)]) = [queue] := by
          rw [queues, List.filterMap_append, ← queues, hqueues]
          rfl
        have hpops' : pops (answers ++ [.load (.ok queue)]) = [] := by
          rw [pops, List.filterMap_append, ← pops, hpops]
          rfl
        have hloaded : Life m (answers ++ [.load (.ok queue)])
            ⟨{ m with queue := some (rest queue _) }, later⟩ :=
          .loaded hqueues' (by rw [hpops']; rfl)
        rwa [hpops'] at hloaded
  | @loaded files queue => exact hlife.append rfl rfl files

theorem Life.pop (h : Life m answers s) (hm : m.queue = none) :
    Life m (answers ++ [(s.step .pop).2]) (s.step .pop).1 := by
  have hlife := h
  cases h with
  | @unloaded files =>
    have hpop : m.pop = .error .notLoaded := by
      rw [Manager.pop, Manager.loaded, hm]
      rfl
    unfold Session.step
    rw [hpop]
    exact hlife.append rfl rfl files
  | @loaded files queue hqueues hpops =>
    unfold Session.step
    simp only [pop_of_rest]
    have hpops' (t : Option Transaction) :
        pops (answers ++ [.pop (.ok t)]) = pops answers ++ [t] := by
      rw [pops, List.filterMap_append]
      rfl
    have hlength (t : Option Transaction) :
        (pops (answers ++ [.pop (.ok t)])).length = (pops answers).length + 1 := by
      rw [hpops', List.length_append]
      rfl
    rw [← hlength queue.transactions[(pops answers).length]?]
    refine .loaded ?_ ?_
    · rw [queues, List.filterMap_append, ← queues, hqueues]
      rfl
    · rw [hlength, hpops', List.range_succ, List.map_append, ← hpops]
      rfl

/-- Each event leads from one state of a session to the next. -/
theorem life_step (hm : m.queue = none) (h : Life m answers s) (event : Event) :
    Life m (answers ++ [(s.step event).2]) (s.step event).1 := by
  cases event with
  | load => exact h.load hm
  | isLoaded => exact h.append rfl rfl s.files
  | peek => exact h.append rfl rfl s.files
  | pop => exact h.pop hm
  | statements => exact h.append rfl rfl s.files
  | change files => exact h.append rfl rfl files

theorem life_run (hm : m.queue = none) (h : Life m answers s) (events : List Event) :
    Life m (answers ++ (s.run events).2) (s.run events).1 := by
  induction events generalizing answers s with
  | nil =>
    rw [Session.run, List.append_nil]
    exact h
  | cons event events ih =>
    have hrest := ih (life_step hm h event)
    rwa [List.append_assoc, List.singleton_append] at hrest

/-! What the state of a session tells of the next answers. -/

theorem session_unloaded (hm : m.queue = none) {files : FileSystem}
    (hqueues : queues answers = []) (hpops : pops answers = []) :
    Session.Unloaded m answers ⟨m, files⟩ := by
  have hloaded : m.loaded = .error .notLoaded := by rw [loaded, hm]
  refine ⟨hqueues, hpops, rfl, ?_, ?_, ?_, ?_, fun log trace => loadsByTimes hm, ?_⟩
  · rw [Session.step, isLoaded, hm]
    rfl
  · rw [Session.step, peek, hloaded]
    rfl
  · rw [Session.step, pop, hloaded]
    rfl
  · rw [Session.step, statements, hloaded]
    rfl
  · intro later fault h
    unfold Session.step at h
    dsimp only at h
    split at h
    · cases h
      rfl
    · cases h

theorem session_loaded {files : FileSystem} (hqueues : queues answers = [queue])
    (hpops : pops answers = (List.range (pops answers).length).map (queue.transactions[·]?)) :
    Session.Loaded queue answers
      ⟨{ m with queue := some (rest queue (pops answers).length) }, files⟩ := by
  refine ⟨hqueues, hpops, rfl, ?_, ?_, rfl, rfl⟩
  · rw [Session.step, peek, loaded, Except.map, front?_rest]
  · unfold Session.step
    rw [pop_of_rest]
    exact ⟨rfl, rfl⟩

theorem queue_of_ofConfig {config : Config} (h : ofConfig config = .ok m) : m.queue = none := by
  unfold ofConfig at h
  obtain ⟨_, -, h⟩ := bind_eq_ok_iff.mp h
  obtain ⟨path, -, h⟩ := bind_eq_ok_iff.mp h
  cases h
  rfl

end

/-- After any events in the life of a manager no load has succeeded, and it answers as a new one; or
one load has, no other ever will, and its transactions are given one after the other. -/
theorem unloaded_or_loaded {config : Config} {m : Manager} (h : ofConfig config = .ok m)
    (files : FileSystem) (events : List Event) :
    Session.Unloaded m ((⟨m, files⟩ : Session).run events).2
        ((⟨m, files⟩ : Session).run events).1 ∨
      ∃ queue, Session.Loaded queue ((⟨m, files⟩ : Session).run events).2
        ((⟨m, files⟩ : Session).run events).1 := by
  have hm := queue_of_ofConfig h
  have hnew : Life m [] ⟨m, files⟩ := .unloaded rfl rfl
  have hlife := life_run hm hnew events
  rw [List.nil_append] at hlife
  generalize (⟨m, files⟩ : Session).run events = ran at hlife ⊢
  obtain ⟨last, answers⟩ := ran
  dsimp only at hlife ⊢
  cases hlife with
  | unloaded hqueues hpops => exact .inl (session_unloaded hm hqueues hpops)
  | loaded hqueues hpops => exact .inr ⟨_, session_loaded hqueues hpops⟩

/-- A load that finds nothing, and one after a log has been written. -/
theorem unloaded_or_loaded_retry :
    let config : Config := { Config.default with logPath := "pg.csv" }
    let m : Manager := ⟨config, "pg.rply", none⟩
    let first : Transaction := ⟨.explicit (some true), 1699794418721000000,
      [.ofStatement (.interned 1) [] 1699794418723000000, .ofEnd 1699794418724000000]⟩
    let second : Transaction := .implicit (.ofStatement (.interned 0) [] 1699794418722000000)
    let queue : Queue := ⟨[first, second], ⟨[(1, "SELECT 1"), (0, "SELECT 2")], #[]⟩⟩
    let ran := (⟨m, .empty 0⟩ : Session).run [.load, .peek, .change Conversion.interleavedFiles,
      .load, .pop, .change (.empty 0), .load, .peek, .pop, .pop]
    ofConfig config = .ok m ∧
      ran.2 = [.load (.error (.missingInputs "pg.csv" "pg.rply")), .peek (.error .notLoaded),
        .change, .load (.ok queue), .pop (.ok (some first)), .change,
        .load (.error .alreadyLoaded), .peek (.ok (some second)), .pop (.ok (some second)),
        .pop (.ok none)] ∧
      Session.Loaded queue ran.2 ran.1 := by
  intro config m first second queue ran
  have hvalid : config.validate = .ok () := by decide +kernel
  have htrace : config.tracePath = .ok "pg.rply" := by decide +kernel
  have hconfig : ofConfig config = .ok m := by
    rw [ofConfig, hvalid, htrace]
    rfl
  have hanswers : ran.2 = [.load (.error (.missingInputs "pg.csv" "pg.rply")),
      .peek (.error .notLoaded), .change, .load (.ok queue), .pop (.ok (some first)), .change,
      .load (.error .alreadyLoaded), .peek (.ok (some second)), .pop (.ok (some second)),
      .pop (.ok none)] := by decide +kernel
  have hqueues : queues ran.2 = [queue] := by
    rw [hanswers]
    rfl
  refine ⟨hconfig, hanswers, ?_⟩
  rcases unloaded_or_loaded hconfig (.empty 0) [.load, .peek, .change Conversion.interleavedFiles,
    .load, .pop, .change (.empty 0), .load, .peek, .pop, .pop] with hunloaded | ⟨found, hloaded⟩
  · cases hqueues.symm.trans hunloaded.queues
  · cases hqueues.symm.trans hloaded.queues
    exact hloaded

end WorkloadReplay.Manager
