import WorkloadReplay.Proofs.RowKinds

/-!
# The counts of a conversion

What a conversion reports is counted in different places: rows as they come, transactions as they
are written. The counts agree, since every row that tells of a statement opens a transaction, closes
one, belongs to an open one or stands for one alone.
-/

namespace WorkloadReplay

def Transaction.statementCount (t : Transaction) : Nat := t.calls.countP (·.target ≠ .end)

namespace Trace

theorem Record.target_of_call? {n : Nat} {r : Record} {c : Call} (h : r.call? n = some c) :
    c.target ≠ .end := by
  unfold Record.call? at h
  split at h
  · cases h
    nofun
  · cases h
    nofun
  · cases h

theorem Calls.countP_target {n : Nat} {rs : List Record} {cs : List Call} (h : Calls n rs cs) :
    cs.countP (·.target ≠ .end) = rs.length := by
  induction h with
  | nil => rfl
  | cons hcall _ ih =>
    rw [List.countP_cons_of_pos (by simpa using Record.target_of_call? hcall), ih,
      List.length_cons]

theorem Parses.length_eq {n : Nat} {rs : List Record} {ts : List Transaction}
    (h : Parses n rs ts) :
    rs.length = 2 * ts.countP (·.isExplicit) + (ts.map (·.statementCount)).sum := by
  induction h with
  | nil => rfl
  | @implicit n r c rs ts hcall _ ih =>
    have hcount : (Transaction.implicit c).statementCount = 1 := by
      simp [Transaction.statementCount, Transaction.implicit, Record.target_of_call? hcall]
    have hkind : (Transaction.implicit c).isExplicit = false := rfl
    rw [List.countP_cons_of_neg (by simp [hkind]), List.map_cons, List.sum_cons, hcount,
      List.length_cons, ih]
    omega
  | @explicit n b e body rs cs abort ts hbegin hcalls hend _ ih =>
    have hcount : (⟨.explicit (some abort), b.time, cs ++ [.ofEnd e.time]⟩ :
        Transaction).statementCount = body.length := by
      rw [Transaction.statementCount, List.countP_append, hcalls.countP_target]
      rfl
    rw [List.countP_cons_of_pos rfl, List.map_cons, List.sum_cons, hcount, List.length_cons,
      List.length_append, List.length_cons, ih]
    omega

end Trace

def LoggedTransaction.isClosed (t : LoggedTransaction) : Bool :=
  match t.state with
  | .closed _ _ => true
  | _ => false

namespace Conversion
open Log Trace

section

variable {e : Event} {ts ts' : List LoggedTransaction} {texts texts' : Array String}
  {vxid : String} {change : LoggedTransaction → LoggedTransaction}

theorem length_updateFirst : (updateFirst vxid change ts).length = ts.length := by
  induction ts with
  | nil => rfl
  | cons t ts ih =>
    rw [updateFirst]
    split
    · rfl
    · rw [List.length_cons, ih, List.length_cons]

theorem countP_updateFirst {p : LoggedTransaction → Bool} (h : ∀ t, p (change t) = p t) :
    (updateFirst vxid change ts).countP p = ts.countP p := by
  induction ts with
  | nil => rfl
  | cons t ts ih =>
    rw [updateFirst]
    split
    · rw [List.countP_cons, List.countP_cons, h]
    · rw [List.countP_cons, List.countP_cons, ih]

theorem countP_isClosed_updateFirst (hopen : hasOpen ts vxid = true)
    (h : ∀ t, (change t).isClosed = true) :
    (updateFirst vxid change ts).countP (·.isClosed) = ts.countP (·.isClosed) + 1 := by
  induction ts with
  | nil => cases hopen
  | cons t ts ih =>
    rw [updateFirst]
    split
    · rename_i ht
      have hnot : ¬t.isClosed = true := by
        simp [LoggedTransaction.isClosed, (state_of_isOpenFor ht).1]
      rw [List.countP_cons_of_pos (h t), List.countP_cons_of_neg hnot]
    · rename_i ht
      have hopen' : hasOpen ts vxid = true := by simpa [hasOpen, ht] using hopen
      rw [List.countP_cons, ih hopen', List.countP_cons]
      omega

theorem length_of_applies (h : Applies e ts texts ts' texts') :
    ts'.length = ts.length + (if e.kind.boundary = .begin then 1 else 0) +
      if e.kind.boundary = .statement ∧ hasOpen ts e.vxid = false then 1 else 0 := by
  cases h with
  | opened hkind =>
    rw [hkind]
    simp [EventKind.boundary]
  | @closed rolledBack hkind =>
    rw [hkind, length_updateFirst]
    cases rolledBack <;> simp [EventKind.boundary]
  | called hkind hopen =>
    rw [hkind, length_updateFirst, hopen]
    simp [EventKind.boundary]
  | alone hkind hopen =>
    rw [hkind, hopen]
    simp [EventKind.boundary]

/-- An event that closes a transaction closes one more, and no other event does. -/
theorem countP_isClosed_of_applies (h : Applies e ts texts ts' texts') :
    ts'.countP (·.isClosed) = ts.countP (·.isClosed) +
      if e.kind.boundary = .commit ∨ e.kind.boundary = .rollback then 1 else 0 := by
  cases h with
  | opened hkind =>
    rw [hkind]
    simp [EventKind.boundary, LoggedTransaction.isClosed]
  | @closed rolledBack hkind hopen =>
    rw [hkind, countP_isClosed_updateFirst hopen fun t => rfl]
    cases rolledBack <;> simp [EventKind.boundary]
  | called hkind =>
    rw [hkind, countP_updateFirst]
    · simp [EventKind.boundary]
    · exact fun t => rfl
  | alone hkind =>
    rw [hkind]
    simp [EventKind.boundary, LoggedTransaction.isClosed]

end

theorem rows_of_apply {c c' : Conversion} {e : Event} (h : c.apply e = .ok c') :
    c'.rows = c.rows ∧ c'.skipped = c.skipped := by
  unfold apply at h
  cases hkind : e.kind with
  | begin =>
    simp only [hkind, start] at h
    split at h
    · cases h
    · cases h
      exact ⟨rfl, rfl⟩
  | close rolledBack =>
    simp only [hkind, close] at h
    split at h
    · cases h
      exact ⟨rfl, rfl⟩
    · cases h
  | statement sql params =>
    simp only [hkind, intern_eq, call, Except.ok.injEq] at h
    subst h
    split
    · exact ⟨rfl, rfl⟩
    · exact ⟨rfl, rfl⟩

/-- What the counts are after some rows, of which the last stands first. -/
structure Tallies (before : List Row) (c : Conversion) : Prop where
  faithful : c.clock.Faithful
  readable : ∀ row ∈ before, ∃ event, eventOfRow row = .ok event
  consistent : Consistent (before.filterMap eventOfRow?) c.transactions c.texts
  rows : c.rows = before.length
  skipped : c.skipped = before.countP (·.isSilent)
  transactions : c.transactions.length = before.countP (·.isBegin) + countAlone before
  closed : c.transactions.countP (·.isClosed) = before.countP (·.isClosing)

theorem tallies_initial : Tallies [] initial where
  faithful := Clock.faithful_new
  readable := nofun
  consistent := consistent_nil
  rows := rfl
  skipped := rfl
  transactions := rfl
  closed := rfl

theorem Tallies.step {before : List Row} {c c' : Conversion} {row : Row} (h : Tallies before c)
    (hstep : c.step row = .ok c') : Tallies (row :: before) c' := by
  obtain ⟨clock, hclock, heq⟩ := step_eq h.faithful row
  rw [heq] at hstep
  cases hevent : eventOfRow row with
  | error fault =>
    rw [hevent] at hstep
    cases hstep
  | ok event =>
    rw [hevent] at hstep
    have hreadable := List.forall_mem_cons.mpr ⟨⟨event, hevent⟩, h.readable⟩
    have hboundary := boundary?_of_eventOfRow hevent
    have hevent? : eventOfRow? row = event := by
      rw [eventOfRow?, hevent]
      rfl
    cases event with
    | none =>
      cases hstep
      refine ⟨hclock, hreadable, ?_, ?_, ?_, ?_, ?_⟩
      · rw [List.filterMap_cons_none hevent?]
        exact h.consistent
      · rw [List.length_cons, h.rows]
      · simp [Row.isSilent, hboundary, h.skipped]
      · simp [Row.isBegin, Row.isStatement, countAlone, hboundary, h.transactions]
      · simp [Row.isClosing, hboundary, h.closed]
    | some e =>
      obtain ⟨happlies, hsame⟩ := applies_of_apply hstep
      obtain ⟨hrows, hskipped⟩ := rows_of_apply hstep
      have hopen : hasOpen c.transactions e.vxid = isOpenAfterRows row.vxid before := by
        rw [isOpenAfterRows_eq h.readable, ← vxid_of_eventOfRow hevent]
        exact h.consistent.hasOpen e.vxid
      refine ⟨?_, hreadable, ?_, ?_, ?_, ?_, ?_⟩
      · rw [hsame]
        exact hclock
      · rw [List.filterMap_cons_some hevent?]
        exact consistent_step happlies (survives_of_eventOfRow? hevent?) h.consistent
      · rw [hrows, List.length_cons, ← h.rows]
      · rw [hskipped, List.countP_cons_of_neg (by simp [Row.isSilent, hboundary])]
        exact h.skipped
      · rw [length_of_applies happlies, hopen, h.transactions, List.countP_cons, countAlone,
          Row.isBegin, Row.isStatement, hboundary]
        simp only [Option.map_some, Option.some.injEq, decide_eq_true_eq, Bool.and_eq_true,
          Bool.not_eq_true']
        omega
      · rw [countP_isClosed_of_applies happlies, h.closed, List.countP_cons, Row.isClosing,
          hboundary]
        simp

theorem Tallies.run {before rows : List Row} {c c' : Conversion} (h : Tallies before c)
    (hrows : rows.foldlM Conversion.step c = .ok c') : Tallies (rows.reverse ++ before) c' := by
  induction rows generalizing c before with
  | nil =>
    cases hrows
    exact h
  | cons row rows ih =>
    rw [List.foldlM_cons] at hrows
    obtain ⟨d, hstep, hrows⟩ := bind_eq_ok_iff.mp hrows
    rw [List.reverse_cons, List.append_assoc]
    exact ih (h.step hstep) hrows

theorem tallies_of_ofLog {log : List UInt8} {c : Conversion} (h : ofLog log = .ok c) :
    Tallies (Log.rows log).1.reverse c := by
  have hrun := tallies_initial.run (ofLog_eq_ok h)
  rwa [List.append_nil] at hrun

/-- Each virtual id that is open is that of one open transaction. -/
theorem Tallies.countP_isOpen {before : List Row} {c : Conversion} (h : Tallies before c) :
    c.transactions.countP (·.isOpen) = (openIds before).length := by
  have hleft : ((c.transactions.filter (·.isOpen)).map (·.vxid)).Nodup :=
    List.pairwise_map.mpr (List.pairwise_filter.mpr h.consistent.apart)
  have hright : (openIds before).Nodup := (List.nodup_dedup _).filter _
  have hmem (vxid : String) :
      vxid ∈ (c.transactions.filter (·.isOpen)).map (·.vxid) ↔ vxid ∈ openIds before := by
    have hopen : hasOpen c.transactions vxid = isOpenAfterRows vxid before := by
      rw [isOpenAfterRows_eq h.readable]
      exact h.consistent.hasOpen vxid
    rw [mem_openIds_iff, ← hopen, hasOpen, List.any_eq_true, List.mem_map]
    simp only [isOpenFor_iff, List.mem_filter, and_assoc]
  have hperm := (List.perm_ext_iff_of_nodup hleft hright).mpr hmem
  rw [← hperm.length_eq, List.length_map, List.countP_eq_length_filter]

section

variable {size : Nat} {ts : List LoggedTransaction}

theorem isSome_loaded? {t : LoggedTransaction} (h : Sane size t) :
    (loaded? t).isSome = !t.isOpen ∧
      ((loaded? t).map (·.isExplicit)).getD false = t.isClosed := by
  unfold LoggedTransaction.isOpen LoggedTransaction.isClosed
  cases hstate : t.state with
  | opened =>
    rw [loaded?_of_opened hstate]
    exact ⟨rfl, rfl⟩
  | implicit =>
    obtain ⟨call, hcalls⟩ := h.single hstate
    rw [loaded?_of_implicit hstate hcalls]
    exact ⟨rfl, rfl⟩
  | closed ended rolledBack =>
    rw [loaded?_of_closed hstate]
    exact ⟨rfl, rfl⟩

theorem length_loaded (h : ∀ t ∈ ts, Sane size t) :
    (ts.filterMap loaded?).length = ts.countP fun t => !t.isOpen := by
  rw [List.length_filterMap_eq_countP]
  exact List.countP_congr fun t ht => by rw [(isSome_loaded? (h t ht)).1]

theorem countP_isExplicit_loaded (h : ∀ t ∈ ts, Sane size t) :
    (ts.filterMap loaded?).countP (·.isExplicit) = ts.countP (·.isClosed) := by
  rw [List.countP_filterMap]
  exact List.countP_congr fun t ht => by rw [(isSome_loaded? (h t ht)).2]

end

/-- The counts of a summary agree with each other, with the rows of the log, and with the records of
the trace and the transactions that these are. -/
structure AddsUp (summary : Summary) (rows : List Row) (records : List Record)
    (written : List Transaction) : Prop where
  read : summary.rows = rows.length
  silent : summary.skipped = rows.countP (·.isSilent)
  /-- Every row is skipped, opens, closes, or is a statement. -/
  kinds : summary.rows = summary.skipped + rows.countP (·.isBegin) + rows.countP (·.isClosing) +
    rows.countP (·.isStatement)
  kept : summary.written = written.length
  /-- A transaction is started by a row that opens it, or by a statement alone. -/
  started : summary.written + summary.dropped =
    rows.countP (·.isBegin) + countAlone rows.reverse
  /-- What is dropped is what is open after the last row. -/
  dropped : summary.dropped = (openIds rows.reverse).length
  closed : rows.countP (·.isClosing) = written.countP (·.isExplicit)
  /-- There are two records for an explicit transaction, and one for each statement. -/
  recorded : records.length =
    2 * written.countP (·.isExplicit) + (written.map (·.statementCount)).sum

theorem addsUp_of_ofLog {log : List UInt8} {c : Conversion} (h : ofLog log = .ok c) :
    AddsUp c.summary (Log.rows log).1 c.records
      ((sessionTransactions log).map (·.loaded (differentTexts log))) := by
  have ht := tallies_of_ofLog h
  have hsane : ∀ t ∈ c.transactions.reverse, Sane c.texts.size t := fun t htmem =>
    ht.consistent.sane t (List.mem_reverse.mp htmem)
  have hparses := parses_of_ofLog h
  rw [Loading.parses_unique hparses (parses_records hsane)]
  have hread : c.rows = (Log.rows log).1.length := by rw [ht.rows, List.length_reverse]
  have hsilent : c.skipped = (Log.rows log).1.countP (·.isSilent) := by
    rw [ht.skipped, List.countP_reverse]
  have hkept := length_loaded hsane
  have hclosed := countP_isExplicit_loaded hsane
  rw [List.countP_reverse] at hkept hclosed
  rw [ht.closed, List.countP_reverse] at hclosed
  constructor
  case read => exact hread
  case silent => exact hsilent
  case kinds =>
    calc c.rows = (Log.rows log).1.length := hread
      _ = _ := length_eq_kinds _
      _ = _ := by rw [← hsilent]; rfl
  case kept => exact hkept.symm
  case started =>
    have hall := List.length_eq_countP_add_countP (l := c.transactions) (·.isOpen)
    rw [ht.transactions, List.countP_reverse] at hall
    have hwritten : c.summary.written = c.transactions.countP fun t => ¬t.isOpen = true :=
      List.countP_congr fun t _ => by simp
    have hdropped : c.summary.dropped = c.transactions.countP (·.isOpen) := rfl
    omega
  case dropped => exact ht.countP_isOpen
  case closed => exact hclosed.symm
  case recorded => exact (parses_records hsane).length_eq

/-- What a conversion reports adds up, and the transactions that it writes are those of the log. -/
theorem convert_addsUp {fs later : FileSystem} {source dest : String} {log : List UInt8}
    {summary : Summary} (hroot : fs.Rooted) (hlog : fs.readExisting source = .ok log)
    (h : convert fs source dest = (later, .ok summary)) :
    ∃ trace records entries, later.readExisting dest = .ok trace ∧
      Layout records entries trace ∧
      Parses 0 records ((sessionTransactions log).map (·.loaded (differentTexts log))) ∧
      AddsUp summary (Log.rows log).1 records
        ((sessionTransactions log).map (·.loaded (differentTexts log))) := by
  obtain ⟨c, hc, hreplace⟩ := convert_eq_ok hlog h
  obtain rfl := summary_of_convert hlog hc h
  exact ⟨c.trace, c.records, c.entries, FileSystem.readExisting_of_replace hroot hreplace,
    layout_trace hc, parses_of_ofLog hc, addsUp_of_ofLog hc⟩

/-- A log in which a virtual id is used again, for a statement alone and for a transaction that is
dropped. -/
def reusedLog : List UInt8 := Text.bytes
  ("2023-11-12 13:06:58.721 UTC,,,,,,,,,4/7,,,,statement: BEGIN,\n" ++
    "2023-11-12 13:06:58.722 UTC,,,,,,,,,4/7,,,,statement: SELECT 1,\n" ++
    "2023-11-12 13:06:58.723 UTC,,,,,,,,,4/7,,,,duration: 1 ms,\n" ++
    "2023-11-12 13:06:58.724 UTC,,,,,,,,,4/7,,,,statement: COMMIT,\n" ++
    "2023-11-12 13:06:58.725 UTC,,,,,,,,,4/7,,,,statement: SELECT 1,\n" ++
    "2023-11-12 13:06:58.726 UTC,,,,,,,,,4/7,,,,statement: BEGIN,\n")

def reusedFiles : FileSystem := ((FileSystem.empty 0).write "pg.csv" reusedLog none).1

def reusedTransactions : List SessionTransaction :=
  [.explicit 1699794418721000000 [⟨"SELECT 1", [], 1699794418722000000⟩]
      1699794418724000000 false,
    .implicit ⟨"SELECT 1", [], 1699794418725000000⟩]

theorem convert_addsUp_reused :
    ∃ trace records entries,
      (convert reusedFiles "pg.csv" "pg.rply").1.readExisting "pg.rply" = .ok trace ∧
      Layout records entries trace ∧
      Parses 0 records (reusedTransactions.map (·.loaded ["SELECT 1"])) ∧
      AddsUp ⟨6, 1, 2, 1, 1⟩ (Log.rows reusedLog).1 records
        (reusedTransactions.map (·.loaded ["SELECT 1"])) := by
  have hroot : reusedFiles.Rooted := (FileSystem.rooted_empty 0).write _ _ _
  have hlog : reusedFiles.readExisting "pg.csv" = .ok reusedLog := by decide +kernel
  have hconvert : (convert reusedFiles "pg.csv" "pg.rply").2 = .ok ⟨6, 1, 2, 1, 1⟩ := by
    decide +kernel
  have hmeaning : sessionTransactions reusedLog = reusedTransactions := by decide +kernel
  have htexts : differentTexts reusedLog = ["SELECT 1"] := by decide +kernel
  rw [← hmeaning, ← htexts]
  exact convert_addsUp hroot hlog (Prod.ext rfl hconvert)

end Conversion

end WorkloadReplay
