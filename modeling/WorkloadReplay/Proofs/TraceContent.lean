import WorkloadReplay.Proofs.WrittenTrace

/-!
# The content of a trace

What a trace holds is a matter of the log alone: the records of its transactions in the order in
which they start, with the id of its text for each statement, and then the different texts in the
order in which they occur, of which each has its place as id. This is so for any number of texts,
where ids are given out again after too many of them.
-/

namespace WorkloadReplay

namespace Log

/-- The different texts of the statements of a log, in the order of their first occurrences. -/
def differentTexts (log : List UInt8) : List String := (statementTexts log).eraseDups

def textId (texts : List String) (sql : String) : UInt32 := UInt32.ofNat (texts.idxOf sql)

def SqlCall.record (texts : List String) (c : SqlCall) : Trace.Record :=
  ⟨c.time, .id (textId texts c.sql), c.params⟩

def endRecord (time : Int64) (rolledBack : Bool) : Trace.Record :=
  ⟨time, if rolledBack then .rollback else .commit, []⟩

def SessionTransaction.records (texts : List String) : SessionTransaction → List Trace.Record
  | implicit call => [call.record texts]
  | explicit time calls ended rolledBack =>
    ⟨time, .begin, []⟩ :: (calls.map (·.record texts) ++ [endRecord ended rolledBack])

def SqlCall.loaded (texts : List String) (c : SqlCall) : Call :=
  .ofStatement (.interned (textId texts c.sql)) c.params c.time

def SessionTransaction.loaded (texts : List String) : SessionTransaction → Transaction
  | implicit call => .implicit (call.loaded texts)
  | explicit time calls ended rolledBack =>
    ⟨.explicit (some rolledBack), time, calls.map (·.loaded texts) ++ [.ofEnd ended]⟩

def tableEntries (texts : List String) : List Trace.Entry :=
  texts.zipIdx.map fun (sql, index) => ⟨UInt32.ofNat index, sql⟩

/-- The trace of a log: the records of its transactions, the line between the sections, and its
different texts. -/
def traceOf (log : List UInt8) : List UInt8 :=
  ((sessionTransactions log).flatMap (·.records (differentTexts log))).flatMap
      Trace.Record.encode ++
    Trace.delimiterLine ++ (tableEntries (differentTexts log)).flatMap Trace.Entry.encode

end Log

namespace Conversion
open Log

/-! The texts. -/

theorem toList_withText {texts : Array String} {sqls : List String}
    (h : texts.toList = sqls.eraseDups) (sql : String) :
    (withText texts sql).toList = (sqls ++ [sql]).eraseDups := by
  have hmem : (texts.idxOf? sql).isSome = true ↔ sql ∈ sqls := by
    rw [Array.isSome_idxOf?, ← Array.mem_toList_iff, h, List.mem_eraseDups]
  unfold withText
  rw [List.eraseDups_append, ← h, List.removeAll]
  split
  · rename_i hsome
    simp [hmem.mp hsome]
  · rename_i hnone
    simp [mt hmem.mpr hnone, List.eraseDups_cons]

theorem toList_of_applies {e : Event} {ts ts' : List LoggedTransaction}
    {texts texts' : Array String} {sqls : List String} (h : Applies e ts texts ts' texts')
    (htexts : texts.toList = sqls.eraseDups) :
    texts'.toList = (sqls ++ e.sql?.toList).eraseDups := by
  cases h with
  | opened hkind => rw [Event.sql?, hkind, Option.toList_none, List.append_nil, htexts]
  | closed hkind => rw [Event.sql?, hkind, Option.toList_none, List.append_nil, htexts]
  | called hkind =>
    rw [Event.sql?, hkind]
    exact toList_withText htexts _
  | alone hkind =>
    rw [Event.sql?, hkind]
    exact toList_withText htexts _

theorem toList_of_gathers {es : List Event} {ts ts' : List LoggedTransaction}
    {texts texts' : Array String} {sqls : List String} (h : Gathers ts texts es ts' texts')
    (htexts : texts.toList = sqls.eraseDups) :
    texts'.toList = (sqls ++ es.filterMap Event.sql?).eraseDups := by
  induction h generalizing sqls with
  | nil => rw [List.filterMap_nil, List.append_nil, htexts]
  | @cons ts ts₁ ts₂ texts texts₁ texts₂ e es h _ ih =>
    rw [ih (toList_of_applies h htexts), List.append_assoc, List.filterMap_cons]
    cases e.sql? with
    | none => rfl
    | some sql => rfl

/-- The id that a text is given is its place among all texts in the end. -/
theorem textId_eq_idOf {texts : Array String} {final : List String} {sql : String}
    (h : (withText texts sql).toList <+: final) : textId final sql = idOf texts sql := by
  have hplace : (withText texts sql).toList.idxOf sql = texts.toList.idxOf sql := by
    unfold withText
    split
    · rfl
    · rename_i hnew
      rw [Array.isSome_idxOf?, ← Array.mem_toList_iff] at hnew
      rw [Array.toList_push, List.idxOf_append_of_notMem hnew, List.idxOf_eq_length hnew,
        List.idxOf_cons_self, Nat.add_zero]
  obtain ⟨more, rfl⟩ := h
  rw [textId, List.idxOf_append_of_mem (mem_withText_self texts sql), hplace,
    List.idxOf_eq_getD_idxOf?, idOf, ← List.idxOf?_toArray, Array.toArray_toList]
  rfl

/-! The records. -/

/-- The records of a transaction with the events that are still to come. -/
def finishedRecords (texts : List String) (after : List Event) (t : LoggedTransaction) :
    List Trace.Record :=
  match t.state with
  | .opened =>
    match block? t.vxid after with
    | none => []
    | some (calls, ended, rolledBack) =>
      ⟨t.time, .begin, []⟩ :: (t.calls.reverse.map LoggedTransaction.callRecord ++
        (calls.map (·.record texts) ++ [endRecord ended rolledBack]))
  | _ => t.records

section

variable {texts : List String} {e : Event} {after : List Event} {t : LoggedTransaction}

theorem finishedRecords_nil (texts : List String) (t : LoggedTransaction) :
    finishedRecords texts [] t = t.records := by
  unfold finishedRecords
  split
  · rename_i hstate
    rw [LoggedTransaction.records, hstate]
    rfl
  · rfl

theorem finishedRecords_cons_of_closed (h : t.isOpenFor e.vxid = false) :
    finishedRecords texts (e :: after) t = finishedRecords texts after t := by
  unfold finishedRecords
  split
  · rename_i hstate
    rw [block?_cons_of_closed hstate h]
  · rfl

theorem finishedRecords_close {rolledBack : Bool} (hkind : e.kind = .close rolledBack)
    (h : t.isOpenFor e.vxid = true) :
    finishedRecords texts (e :: after) t =
      finishedRecords texts after { t with state := .closed e.time rolledBack } := by
  obtain ⟨hstate, hvxid⟩ := state_of_isOpenFor h
  simp [finishedRecords, hstate, block?, hvxid, hkind, LoggedTransaction.records, endRecord]

theorem finishedRecords_call {sql : String} {params : List Value} {call : LoggedCall}
    (hkind : e.kind = .statement sql params)
    (hcall : LoggedTransaction.callRecord call = SqlCall.record texts ⟨sql, params, e.time⟩)
    (h : t.isOpenFor e.vxid = true) :
    finishedRecords texts (e :: after) t =
      finishedRecords texts after { t with calls := call :: t.calls } := by
  obtain ⟨hstate, hvxid⟩ := state_of_isOpenFor h
  simp only [finishedRecords, hstate, block?, hvxid, hkind, if_pos]
  cases block? e.vxid after with
  | none => rfl
  | some found => simp [hcall]

theorem map_of_closed {ts : List LoggedTransaction} (h : hasOpen ts e.vxid = false) :
    ts.map (finishedRecords texts (e :: after)) = ts.map (finishedRecords texts after) := by
  apply List.map_congr_left
  intro t ht
  exact finishedRecords_cons_of_closed (hasOpen_eq_false_iff.mp h t ht)

end

/-- The records of transactions with the events that are still to come, the last one first. -/
def allRecords (texts : List String) (after : List Event) (ts : List LoggedTransaction) :
    List Trace.Record :=
  (ts.map (finishedRecords texts after)).reverse.flatten

theorem allRecords_cons (texts : List String) (after : List Event) (t : LoggedTransaction)
    (ts : List LoggedTransaction) :
    allRecords texts after (t :: ts) =
      allRecords texts after ts ++ finishedRecords texts after t := by
  simp [allRecords]

/-- An event leaves what is to be written as it is. -/
theorem allRecords_step {before after : List Event} {e : Event} {ts ts' : List LoggedTransaction}
    {texts texts' : Array String} {final : List String} (h : Applies e ts texts ts' texts')
    (hc : Consistent before ts texts) (hextends : texts'.toList <+: final) :
    allRecords final (e :: after) ts ++
        (transactionAt? before e after).toList.flatMap (·.records final) =
      allRecords final after ts' := by
  cases h with
  | opened hkind hopen =>
    rw [allRecords_cons, allRecords, map_of_closed hopen, ← allRecords]
    congr 1
    rw [transactionAt?, hkind]
    simp only [finishedRecords]
    cases block? e.vxid after with
    | none => rfl
    | some found => simp [SessionTransaction.records]
  | closed hkind hopen =>
    have hnone : transactionAt? before e after = none := by rw [transactionAt?, hkind]
    rw [hnone, Option.toList_none, List.flatMap_nil, List.append_nil, allRecords, allRecords,
      map_updateFirst hc.apart (fun t => finishedRecords_cons_of_closed)
        fun t ht => finishedRecords_close hkind ht]
  | @called sql params hkind hopen =>
    have hnone : transactionAt? before e after = none := by
      simp [transactionAt?, hkind, ← hc.hasOpen, hopen]
    have hcall : LoggedTransaction.callRecord ⟨e.time, idOf texts sql, params⟩ =
        SqlCall.record final ⟨sql, params, e.time⟩ := by
      rw [SqlCall.record, textId_eq_idOf hextends, LoggedTransaction.callRecord]
    rw [hnone, Option.toList_none, List.flatMap_nil, List.append_nil, allRecords, allRecords,
      map_updateFirst hc.apart (fun t => finishedRecords_cons_of_closed)
        fun t ht => finishedRecords_call hkind hcall ht]
  | @alone sql params hkind hopen =>
    have hnew : transactionAt? before e after = some (.implicit ⟨sql, params, e.time⟩) := by
      simp [transactionAt?, hkind, ← hc.hasOpen, hopen]
    rw [hnew, allRecords_cons, allRecords, map_of_closed hopen, ← allRecords]
    congr 1
    simp [finishedRecords, LoggedTransaction.records, LoggedTransaction.callRecord,
      SessionTransaction.records, SqlCall.record, textId_eq_idOf hextends]

theorem allRecords_run {es before : List Event} {ts ts' : List LoggedTransaction}
    {texts texts' : Array String} {final : List String} (h : Gathers ts texts es ts' texts')
    (hes : ∀ e ∈ es, Survives e) (hc : Consistent before ts texts)
    (hextends : texts'.toList <+: final) :
    allRecords final es ts ++ (transactionsFrom before es).flatMap (·.records final) =
      allRecords final [] ts' := by
  induction h generalizing before with
  | nil => rw [transactionsFrom, List.flatMap_nil, List.append_nil]
  | @cons ts ts₁ ts₂ texts texts₁ texts₂ e es h hs ih =>
    have hstep := consistent_step h (hes e List.mem_cons_self) hc
    have hextends₁ := (prefix_of_gathers hs).trans hextends
    rw [transactionsFrom, List.flatMap_append, ← List.append_assoc,
      allRecords_step h hc hextends₁]
    exact ih (fun e he => hes e (List.mem_cons_of_mem _ he)) hstep hextends

/-! The trace. -/

section

variable {c : Conversion} {log : List UInt8}

theorem toList_texts (h : ofLog log = .ok c) : c.texts.toList = differentTexts log := by
  have hempty : (#[] : Array String).toList = ([] : List String).eraseDups := rfl
  exact toList_of_gathers (gathers_of_ofLog h) hempty

theorem records_eq (h : ofLog log = .ok c) :
    c.records = (sessionTransactions log).flatMap (·.records (differentTexts log)) := by
  have hextends : c.texts.toList <+: differentTexts log := by rw [toList_texts h]
  have hrun := allRecords_run (gathers_of_ofLog h) survives_of_mem_events consistent_nil hextends
  have hnone : finishedRecords (differentTexts log) [] = (·.records) :=
    funext (finishedRecords_nil (differentTexts log))
  have hall : allRecords (differentTexts log) [] c.transactions = c.records := by
    rw [allRecords, hnone, ← List.map_reverse]
    rfl
  rw [← hall, ← hrun]
  rfl

theorem parses_sessionRecords (texts : List String) (ts : List SessionTransaction) :
    Trace.Parses 0 (ts.flatMap (·.records texts)) (ts.map (·.loaded texts)) := by
  have hrecords (calls : List SqlCall) : calls.map (·.record texts) =
      (calls.map fun c => ⟨c.time, textId texts c.sql, c.params⟩).map
        LoggedTransaction.callRecord := by
    rw [List.map_map]
    rfl
  have hcalls (calls : List SqlCall) :
      Trace.Calls 0 (calls.map (·.record texts)) (calls.map (·.loaded texts)) := by
    have hlogged := calls_callRecords
      (calls.map fun c => ⟨c.time, textId texts c.sql, c.params⟩)
    rw [← hrecords, List.map_map] at hlogged
    exact hlogged
  induction ts with
  | nil => exact .nil 0
  | cons t ts ih =>
    rw [List.flatMap_cons, List.map_cons]
    cases t with
    | implicit call => exact .implicit rfl ih
    | explicit time calls ended rolledBack =>
      rw [SessionTransaction.records, List.cons_append, List.append_assoc]
      refine .explicit rfl (hcalls calls) rfl ?_
      rw [hrecords, inlineTexts_callRecords]
      exact ih

theorem parses_of_ofLog (h : ofLog log = .ok c) :
    Trace.Parses 0 c.records
      ((sessionTransactions log).map (·.loaded (differentTexts log))) := by
  rw [records_eq h]
  exact parses_sessionRecords _ _

/-- What is written for a log is its trace. -/
theorem trace_eq_traceOf (h : ofLog log = .ok c) : c.trace = traceOf log := by
  rw [trace, traceOf, records_eq h, entries, toList_texts h]
  rfl

end

end Conversion

end WorkloadReplay
