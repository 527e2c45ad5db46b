import WorkloadReplay.Proofs.CrewHistory

/-!
# The statements of a playback

In playing a transaction its statements are asked for one after the other, from the first on, each
with its text. The next one is asked for only after all before it have been executed and as long as
no look at the sign to stop has found it given. So what the playing came to tells whether all
statements have been executed.
-/

namespace WorkloadReplay

def Request.isExecute : Request → Bool
  | execute _ _ _ => true
  | _ => false

namespace Act

def request? : Act → Option Request
  | .request r _ => some r
  | .look _ => none

def executed? : Act → Option Request
  | .request (.execute key sql params) none => some (.execute key sql params)
  | _ => none

/-- The act is neither a request that fails nor a look that finds the sign to stop given. -/
def fine : Act → Bool
  | .look stopped => !stopped
  | .request _ failure => failure.isNone

end Act

def requests (acts : List Act) : List Request := acts.filterMap Act.request?

def executed (acts : List Act) : List Request := acts.filterMap Act.executed?

/-- What a call asks for: nothing if it is an end, and nothing that could be asked for if it is of a
statement without a text. -/
def Call.asks (table : StatementTable) (call : Call) : List (Option Request) :=
  match call.target with
  | .end => []
  | .statement key => [(table.resolve key).map fun sql => .execute key sql call.params]

def asked (table : StatementTable) (calls : List Call) : List (Option Request) :=
  calls.flatMap (·.asks table)

/-- All statements of a transaction have been executed, and no look found the sign to stop given. -/
structure Completed (table : StatementTable) (t : Transaction) (acts : List Act) : Prop where
  all : (executed acts).map some = asked table t.calls
  uncancelled : .look true ∉ acts

/-- The acts of playing a transaction, by what it came to. -/
structure Plays (table : StatementTable) (t : Transaction) (acts : List Act)
    (result : Except Fault Outcome) : Prop where
  execute : ∀ request ∈ requests acts, request.isExecute = true
  ordered : (requests acts).map some <+: asked table t.calls
  fine : ∀ act ∈ acts.dropLast, act.fine = true
  committed : result = .ok .committed ↔ Completed table t acts ∧ t.abort? = some false
  cancelled : result = .ok .cancelled ↔ .look true ∈ acts

structure Made (table : StatementTable) (done : List Call) (acts : List Act) : Prop where
  requests : (requests acts).map some = asked table done
  fine : ∀ act ∈ acts, act.fine = true

section

variable {table : StatementTable} {t : Transaction} {done rest : List Call} {call : Call}
  {acts : List Act}

theorem asked_append (calls more : List Call) :
    asked table (calls ++ more) = asked table calls ++ asked table more := List.flatMap_append

theorem asked_cons (call : Call) (calls : List Call) :
    asked table (call :: calls) = call.asks table ++ asked table calls := List.flatMap_cons

theorem requests_append (acts more : List Act) :
    requests (acts ++ more) = requests acts ++ requests more := List.filterMap_append

theorem requests_append_look (acts : List Act) (stopped : Bool) :
    requests (acts ++ [.look stopped]) = requests acts := by
  rw [requests_append]
  exact List.append_nil _

theorem executed_append (acts more : List Act) :
    executed (acts ++ more) = executed acts ++ executed more := List.filterMap_append

theorem isExecute_of_mem_asked {calls : List Call} {request : Request}
    (h : some request ∈ asked table calls) : request.isExecute = true := by
  obtain ⟨call, -, hcall⟩ := List.mem_flatMap.mp h
  unfold Call.asks at hcall
  split at hcall
  · cases hcall
  · obtain ⟨sql, -, rfl⟩ := Option.map_eq_some_iff.mp (List.mem_singleton.mp hcall).symm
    rfl

theorem made_nil : Made table [] [] := ⟨rfl, nofun⟩

theorem Made.isExecute (h : Made table done acts) :
    ∀ request ∈ WorkloadReplay.requests acts, request.isExecute = true := by
  intro request hrequest
  have hasked : some request ∈ asked table done := by
    rw [← h.requests]
    exact List.mem_map_of_mem hrequest
  exact isExecute_of_mem_asked hasked

theorem Made.look_notMem (h : Made table done acts) : Act.look true ∉ acts := by
  intro hlook
  cases h.fine _ hlook

theorem Made.executed_eq (h : Made table done acts) :
    executed acts = WorkloadReplay.requests acts := by
  refine List.filterMap_congr fun act hact => ?_
  have hfine := h.fine act hact
  cases act with
  | look stopped => rfl
  | request request failure =>
    have hexecute := h.isExecute request (List.mem_filterMap.mpr ⟨_, hact, rfl⟩)
    cases failure with
    | some reason => cases hfine
    | none =>
      cases request with
      | execute key sql params => rfl
      | begin => cases hexecute
      | commit => cases hexecute
      | rollback => cases hexecute

theorem Made.map_executed (h : Made table done acts) :
    (executed acts).map some = asked table done := by
  rw [h.executed_eq, h.requests]

theorem Made.ordered (h : Made table done acts) (rest : List Call) :
    (WorkloadReplay.requests acts).map some <+: asked table (done ++ rest) := by
  rw [h.requests, asked_append]
  exact List.prefix_append _ _

theorem Made.append {more : List Act} (h : Made table done acts) (hmore : Made table rest more) :
    Made table (done ++ rest) (acts ++ more) where
  requests := by
    rw [asked_append, requests_append, List.map_append, h.requests, hmore.requests]
  fine := by
    intro act hact
    rcases List.mem_append.mp hact with hact | hact
    · exact h.fine act hact
    · exact hmore.fine act hact

theorem made_look : Made table [] [.look false] := ⟨rfl, by decide⟩

theorem Made.look (h : Made table done acts) : Made table done (acts ++ [.look false]) := by
  simpa using h.append made_look

theorem made_end (hcall : call.target = .end) : Made table [call] [] where
  requests := by
    rw [asked_cons, Call.asks, hcall]
    rfl
  fine := nofun

theorem made_execute {key : StatementKey} {sql : String} (hsql : table.resolve key = some sql)
    (params : List Value) (time : Int64) :
    Made table [⟨.statement key, params, time⟩] [.request (.execute key sql params) none] where
  requests := by
    simp [asked, Call.asks, hsql, WorkloadReplay.requests, Act.request?]
  fine := by
    intro act hact
    rw [List.mem_singleton.mp hact]
    rfl

/-! What a playback comes to, in each way in which it can end. -/

theorem mem_dropLast_append_singleton {act last : Act} (h : act ∈ (acts ++ [last]).dropLast) :
    act ∈ acts := by
  rwa [List.dropLast_concat] at h

theorem Made.plays_conclusion (h : Made table t.calls acts) :
    Plays table t acts (Playback.conclusion t) where
  execute := h.isExecute
  ordered := by simpa using h.ordered []
  fine := fun act hact => h.fine act (List.dropLast_subset _ hact)
  committed := by
    have hcompleted : Completed table t acts := ⟨h.map_executed, h.look_notMem⟩
    simp only [hcompleted, true_and, Playback.conclusion, Transaction.shouldAbort]
    cases t.abort? with
    | none => exact iff_of_false nofun nofun
    | some abort => cases abort <;> simp [Except.map]
  cancelled := by
    refine iff_of_false ?_ h.look_notMem
    rw [Playback.conclusion, Transaction.shouldAbort]
    cases t.abort? with
    | none => exact nofun
    | some abort => cases abort <;> exact nofun

theorem Made.plays_cancelled (h : Made table done acts) (hcalls : t.calls = done ++ rest) :
    Plays table t (acts ++ [.look true]) (.ok .cancelled) where
  execute := by
    rw [requests_append_look]
    exact h.isExecute
  ordered := by
    rw [requests_append_look, hcalls]
    exact h.ordered rest
  fine := fun act hact => h.fine act (mem_dropLast_append_singleton hact)
  committed := by
    refine iff_of_false nofun fun hcompleted => ?_
    exact hcompleted.1.uncancelled (List.mem_append_right _ List.mem_cons_self)
  cancelled := iff_of_true rfl (List.mem_append_right _ List.mem_cons_self)

theorem Completed.resolve_ne_none {key : StatementKey} (h : Completed table t acts)
    (hmem : call ∈ t.calls) (hcall : call.target = .statement key) :
    table.resolve key ≠ none := by
  intro hsql
  have hnone : none ∈ asked table t.calls :=
    List.mem_flatMap.mpr ⟨call, hmem, by simp [Call.asks, hcall, hsql]⟩
  rw [← h.all] at hnone
  obtain ⟨_, -, h⟩ := List.mem_map.mp hnone
  cases h

/-- Up to a statement that fails not all statements have been executed. -/
theorem Made.not_completed_failed {key : StatementKey} {sql : String} {params : List Value}
    {time : Int64} (h : Made table done acts)
    (hcalls : t.calls = done ++ ⟨.statement key, params, time⟩ :: rest) (reason : String) :
    ¬ Completed table t (acts ++ [.request (.execute key sql params) (some reason)]) := by
  intro hcompleted
  have hlength := congrArg List.length hcompleted.all
  have hfailed : executed [.request (.execute key sql params) (some reason)] = [] := rfl
  rw [executed_append, hfailed, List.append_nil, h.map_executed, hcalls, asked_append,
    asked_cons, Call.asks, List.length_append, List.length_append, List.length_singleton]
    at hlength
  omega

/-- A statement without a text is not asked for, and nothing after it. -/
theorem Made.plays_unresolved {key : StatementKey} {fault : Fault} (h : Made table done acts)
    (hcalls : t.calls = done ++ call :: rest) (hcall : call.target = .statement key)
    (hsql : table.resolve key = none) : Plays table t acts (.error fault) where
  execute := h.isExecute
  ordered := by rw [hcalls]; exact h.ordered _
  fine := fun act hact => h.fine act (List.dropLast_subset _ hact)
  committed := by
    refine iff_of_false nofun fun hcompleted => ?_
    exact hcompleted.1.resolve_ne_none (by rw [hcalls]; simp) hcall hsql
  cancelled := iff_of_false nofun h.look_notMem

theorem Made.plays_failed {key : StatementKey} {sql reason : String} {params : List Value}
    {time : Int64} {fault : Fault} (h : Made table done acts)
    (hcalls : t.calls = done ++ ⟨.statement key, params, time⟩ :: rest)
    (hsql : table.resolve key = some sql) :
    Plays table t (acts ++ [.request (.execute key sql params) (some reason)]) (.error fault) where
  execute := by
    rw [requests_append]
    have hmade := (h.append (made_execute hsql params time)).isExecute
    rwa [requests_append] at hmade
  ordered := by
    have hmade := (h.append (made_execute hsql params time)).ordered rest
    rw [requests_append, List.append_assoc] at hmade
    rw [requests_append, hcalls]
    exact hmade
  fine := fun act hact => h.fine act (mem_dropLast_append_singleton hact)
  committed := by
    refine iff_of_false nofun fun hcompleted => ?_
    exact h.not_completed_failed hcalls reason hcompleted.1
  cancelled := by
    refine iff_of_false nofun fun hlook => ?_
    rcases List.mem_append.mp hlook with hlook | hlook
    · exact h.look_notMem hlook
    · cases List.mem_singleton.mp hlook

/-- How a playback of a transaction stands to what it has done. -/
inductive Playing (table : StatementTable) (t : Transaction) (acts : List Act) : Playback → Prop
  | next {started executed : Nat} {done rest : List Call} (made : Made table done acts)
      (calls : t.calls = done ++ rest) :
      Playing table t acts ⟨started, { t with calls := rest }, executed, .next⟩
  | waiting {started executed : Nat} {done rest : List Call} {call : Call}
      (made : Made table done acts) (calls : t.calls = done ++ call :: rest) :
      Playing table t acts ⟨started, { t with calls := rest }, executed, .waiting call⟩
  | issuing {started executed : Nat} {done rest : List Call} {key : StatementKey} {sql : String}
      {params : List Value} {time : Int64} (made : Made table done acts)
      (calls : t.calls = done ++ ⟨.statement key, params, time⟩ :: rest)
      (resolved : table.resolve key = some sql) :
      Playing table t acts ⟨started, { t with calls := rest }, executed, .issuing key sql params⟩
  | ended {started executed : Nat} {remaining : Transaction} {result : Except Fault Outcome}
      (plays : Plays table t acts result) :
      Playing table t acts ⟨started, remaining, executed, .ended result⟩

theorem playing_start (now : Nat) (t : Transaction) : Playing table t [] (.start now t) :=
  .next made_nil rfl

theorem Playing.plays {p : Playback} {result : Except Fault Outcome} (h : Playing table t acts p)
    (hresult : p.result? = some result) : Plays table t acts result := by
  cases h with
  | ended plays =>
    cases hresult
    exact plays
  | next => cases hresult
  | waiting => cases hresult
  | issuing => cases hresult

theorem Made.playing_arrive {started executed : Nat} {phase : PlaybackPhase}
    (h : Made table done acts) (hcalls : t.calls = done ++ call :: rest) :
    Playing table t acts
      (Playback.arrive table ⟨started, { t with calls := rest }, executed, phase⟩ call) := by
  unfold Playback.arrive
  obtain ⟨target, params, time⟩ := call
  cases target with
  | «end» =>
    have hmade : Made table (done ++ [⟨.end, params, time⟩]) acts := by
      simpa using h.append (made_end rfl)
    exact .next hmade (by rw [hcalls, List.append_cons])
  | statement key =>
    dsimp only
    cases hsql : table.resolve key with
    | none => exact .ended (h.plays_unresolved hcalls rfl hsql)
    | some sql => exact .issuing h hcalls hsql

/-- A step of a playback does what it is to do next. -/
theorem Playing.step {p : Playback} (h : Playing table t acts p) (pacing : Pacing) (now : Nat)
    (stopped : Bool) (failure : Option String) :
    Playing table t (acts ++ p.acts stopped failure) (p.step pacing table now stopped failure) := by
  cases h with
  | @next started executed done rest made calls =>
    cases rest with
    | nil =>
      rw [List.append_nil] at calls
      rw [← calls] at made
      change Playing table t (acts ++ []) _
      rw [List.append_nil]
      exact .ended made.plays_conclusion
    | cons call rest =>
      change Playing table t (acts ++ [.look stopped]) _
      cases stopped with
      | true => exact .ended (made.plays_cancelled calls)
      | false =>
        simp only [Playback.step, Transaction.pop, List.head?_cons, List.tail_cons,
          Bool.false_eq_true, if_false]
        split
        · exact .waiting made.look calls
        · exact made.look.playing_arrive calls
  | @waiting started executed done rest call made calls =>
    change Playing table t (acts ++ [.look stopped]) _
    cases stopped with
    | true => exact .ended (made.plays_cancelled calls)
    | false =>
      simp only [Playback.step, Bool.false_eq_true, if_false]
      split
      · exact .waiting made.look calls
      · exact made.look.playing_arrive calls
  | @issuing started executed done rest key sql params time made calls resolved =>
    cases failure with
    | some reason => exact .ended (made.plays_failed calls resolved)
    | none =>
      refine .next (made.append (made_execute resolved params time)) ?_
      rw [calls, List.append_cons]
  | ended plays =>
    change Playing table t (acts ++ []) _
    rw [List.append_nil]
    exact .ended plays

/-- At the sign to stop or a failure a playback ends with its next step. -/
theorem Playing.exists_plays {p : Playback} (h : Playing table t acts p) :
    ∃ more result, Plays table t (acts ++ more) result := by
  have hstep := h.step ⟨false, .one⟩ 0 true (some "")
  have hended : ∃ result, (p.step ⟨false, .one⟩ table 0 true (some "")).result? = some result := by
    cases h with
    | @next started executed done rest made calls =>
      cases rest with
      | nil => exact ⟨_, rfl⟩
      | cons call rest => exact ⟨_, rfl⟩
    | waiting made calls => exact ⟨_, rfl⟩
    | issuing made calls resolved => exact ⟨_, rfl⟩
    | ended plays => exact ⟨_, rfl⟩
  obtain ⟨result, hresult⟩ := hended
  exact ⟨_, result, hstep.plays hresult⟩

end

end WorkloadReplay
