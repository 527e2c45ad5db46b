import WorkloadReplay.Proofs.PlaybackRuns

/-!
# The order of playing

A transaction is played in the order in which it was recorded. The first look that finds the sign to
stop given, the first statement without a text and the first request that fails end it, and what it
came to tells which of these it was. Only if there is none are all statements executed, and then the
transaction comes to what is known of its end.
-/

namespace WorkloadReplay

/-- Some calls have been made, and the statement behind them has no text for its key. -/
def StopsAtTextless (table : StatementTable) (t : Transaction) (acts : List Act)
    (key : StatementKey) : Prop :=
  ∃ passed params time rest, t.calls = passed ++ ⟨.statement key, params, time⟩ :: rest ∧
    (requests acts).map some = asked table passed ∧ table.resolve key = none

section

variable {table : StatementTable} {t : Transaction} {acts : List Act}
  {done passed rest rest' : List Call} {call call' : Call} {key : StatementKey} {sql : String}
  {params : List Value} {time : Int64} {result : Except Fault Outcome} {reason : String}

/-! The calls that can have been made. -/

theorem eq_of_append_cons {P : Call → Prop} (hdone : ∀ c ∈ done, ¬ P c) (hcall : P call)
    (hpassed : ∀ c ∈ passed, ¬ P c) (hcall' : P call')
    (h : done ++ call :: rest = passed ++ call' :: rest') : call = call' := by
  rcases List.append_eq_append_iff.mp h with ⟨more, hpassed', hmore⟩ | ⟨more, hdone', hmore⟩
  · cases more with
    | nil => exact (List.cons.inj hmore).1
    | cons c more =>
      obtain ⟨rfl, -⟩ := List.cons.inj hmore
      exact absurd hcall (hpassed call (by simp [hpassed']))
  · cases more with
    | nil => exact (List.cons.inj hmore).1.symm
    | cons c more =>
      obtain ⟨rfl, -⟩ := List.cons.inj hmore
      exact absurd hcall' (hdone call' (by simp [hdone']))

/-- Playing stops at one key at most. -/
theorem StopsAtTextless.unique {key' : StatementKey} (h : StopsAtTextless table t acts key)
    (h' : StopsAtTextless table t acts key') : key = key' := by
  obtain ⟨done, params, time, rest, hcalls, hdone, hkey⟩ := h
  obtain ⟨passed, params', time', rest', hcalls', hpassed, hkey'⟩ := h'
  have htext {calls : List Call} (hcalls : (requests acts).map some = asked table calls) :
      ∀ c ∈ calls, ¬ none ∈ c.asks table := by
    intro c hc hnone
    have hmem : none ∈ asked table calls := List.mem_flatMap.mpr ⟨c, hc, hnone⟩
    rw [← hcalls] at hmem
    obtain ⟨_, -, h⟩ := List.mem_map.mp hmem
    cases h
  have hsame := eq_of_append_cons (htext hdone) (by simp [Call.asks, hkey]) (htext hpassed)
    (by simp [Call.asks, hkey']) (hcalls.symm.trans hcalls')
  cases hsame
  rfl

theorem Playing.ordered {p : Playback} (h : Playing table t acts p) :
    (requests acts).map some <+: asked table t.calls := by
  cases h with
  | next made calls => rw [calls]; exact made.ordered _
  | waiting made calls => rw [calls]; exact made.ordered _
  | issuing made calls resolved => rw [calls]; exact made.ordered _
  | ended plays => exact plays.ordered

theorem Playing.run {pacing : Pacing} {p last : Playback} {more : List Act}
    (hrun : Playback.Run pacing table p more last) (h : Playing table t acts p) :
    Playing table t (acts ++ more) last := by
  induction hrun generalizing acts with
  | refl p => rwa [List.append_nil]
  | step now stopped failure run ih =>
    rw [← List.append_assoc]
    exact ih (h.step pacing now stopped failure)

end

end WorkloadReplay
