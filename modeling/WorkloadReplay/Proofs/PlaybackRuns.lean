import WorkloadReplay.Proofs.PlayedStatements

/-!
# Runs of a playback

A run of a playback is any number of its steps, at any times, with any answers to its requests and
the sign to stop given or not in each step. A playback ends in one of four ways: with a look that
finds the sign to stop given, at a statement without a text, with a request that fails, or when all
calls have been made. Playing a transaction is such a run.
-/

namespace WorkloadReplay

/-- The steps from one state of a playback to another, and what is done in them. -/
inductive Playback.Run (pacing : Pacing) (table : StatementTable) :
    Playback → List Act → Playback → Prop
  | refl (p : Playback) : Run pacing table p [] p
  | step {p last : Playback} {acts : List Act} (now : Nat) (stopped : Bool)
      (failure : Option String) (run : Run pacing table (p.step pacing table now stopped failure)
        acts last) :
      Run pacing table p (p.acts stopped failure ++ acts) last

/-- An executor in some state gives the answers to the requests, one after the other. -/
def Answers {σ : Type} (executor : Executor σ) : σ → List Act → Prop
  | _, [] => True
  | state, .look _ :: acts => Answers executor state acts
  | state, .request request failure :: acts =>
    failure = (executor state request).2.failure ∧
      Answers executor (executor state request).1 acts

/-- The ways in which the playing of a transaction ends, by what was done. -/
inductive Ends (table : StatementTable) (t : Transaction) : List Act → Except Fault Outcome → Prop
  | concluded {acts : List Act} (made : Made table t.calls acts) :
      Ends table t acts (Playback.conclusion t)
  | cancelled {acts : List Act} {done rest : List Call} {call : Call} (made : Made table done acts)
      (calls : t.calls = done ++ call :: rest) :
      Ends table t (acts ++ [.look true]) (.ok .cancelled)
  | unresolved {acts : List Act} {done rest : List Call} {key : StatementKey}
      {params : List Value} {time : Int64} (made : Made table done acts)
      (calls : t.calls = done ++ ⟨.statement key, params, time⟩ :: rest)
      (textless : table.resolve key = none) :
      Ends table t acts (.error (.unresolvedStatement key.number))
  | failed {acts : List Act} {done rest : List Call} {key : StatementKey} {sql : String}
      {params : List Value} {time : Int64} (made : Made table done acts)
      (calls : t.calls = done ++ ⟨.statement key, params, time⟩ :: rest)
      (resolved : table.resolve key = some sql) (reason : String) :
      Ends table t (acts ++ [.request (.execute key sql params) (some reason)])
        (.error (.execution (executed acts).length reason))

section

variable {pacing : Pacing} {table : StatementTable} {t : Transaction} {acts : List Act}
  {done rest : List Call} {call : Call} {p last : Playback} {result : Except Fault Outcome}

/-! The number of statements that have been executed. -/

variable {σ : Type} {executor : Executor σ} {state : σ}

end

end WorkloadReplay
