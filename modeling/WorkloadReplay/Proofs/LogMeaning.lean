import WorkloadReplay.Log.Statement
import WorkloadReplay.Log.Row
import WorkloadReplay.Log.Timestamp
import WorkloadReplay.Transaction
import Mathlib.Data.List.Forall2

/-!
# The meaning of a log

The rows of a log tell of events in the sessions. An event that opens a transaction starts an
explicit one, made of the statements of its session up to the event that closes it; without such an
event there is none. A statement in a session without an open transaction is one of its own.
-/

namespace WorkloadReplay.Log

inductive EventKind where
  | begin
  | close (rolledBack : Bool)
  | statement (sql : String) (params : List Value)
  deriving DecidableEq

structure Event where
  vxid : String
  time : Int64
  kind : EventKind
  deriving DecidableEq

/-- What a statement that a row tells of is in its session. -/
def kindOfSql (row : Row) (sql : String) : Except Fault EventKind :=
  match classify sql with
  | .begin => .ok .begin
  | .commit => .ok (.close false)
  | .rollback => .ok (.close true)
  | .statement => (paramsOfDetail row.detail row.line).map fun params => .statement sql params

/-- The event that a row tells of, if any; its time is read for itself. -/
def eventOfRow (row : Row) : Except Fault (Option Event) :=
  match sqlOfMessage? row.message with
  | none => .ok none
  | some sql =>
    match (Clock.new.parse row.logTime).2 with
    | .error fault => .error fault
    | .ok time => (kindOfSql row sql).map fun kind => some ⟨row.vxid, time, kind⟩

/-- The event that a row tells of, where a row that cannot be read tells of none. -/
def eventOfRow? (row : Row) : Option Event := (eventOfRow row).toOption.join

theorem toOption_paramsOfDetail (detail : String) (line line' : Nat) :
    (paramsOfDetail detail line).toOption = (paramsOfDetail detail line').toOption := by
  unfold paramsOfDetail
  split
  · split
    · rfl
    · rfl
  · rfl

theorem columns_eq {row row' : Row} (h : row.fields = row'.fields) :
    row.logTime = row'.logTime ∧ row.vxid = row'.vxid ∧ row.message = row'.message ∧
      row.detail = row'.detail := by
  obtain ⟨line, fields, enough⟩ := row
  obtain ⟨line', fields', enough'⟩ := row'
  obtain rfl : fields = fields' := h
  exact ⟨rfl, rfl, rfl, rfl⟩

theorem toOption_kindOfSql {row row' : Row} (h : row.detail = row'.detail) (sql : String) :
    (kindOfSql row sql).toOption = (kindOfSql row' sql).toOption := by
  unfold kindOfSql
  cases classify sql with
  | begin => rfl
  | commit => rfl
  | rollback => rfl
  | statement =>
    dsimp only
    rw [toOption_map, toOption_map, h, toOption_paramsOfDetail]

theorem toOption_eventOfRow {row row' : Row} (h : row.fields = row'.fields) :
    (eventOfRow row).toOption = (eventOfRow row').toOption := by
  obtain ⟨htime, hvxid, hmessage, hdetail⟩ := columns_eq h
  unfold eventOfRow
  rw [hmessage, htime, hvxid]
  cases sqlOfMessage? row'.message with
  | none => rfl
  | some sql =>
    cases (Clock.new.parse row'.logTime).2 with
    | error fault => rfl
    | ok time =>
      dsimp only
      rw [toOption_map, toOption_map, toOption_kindOfSql hdetail]

theorem eventOfRow_of_fields {row row' : Row} (h : row.fields = row'.fields) {event : Option Event}
    (hevent : eventOfRow row = .ok event) : eventOfRow row' = .ok event := by
  rw [← toOption_eq_some_iff, ← toOption_eventOfRow h, toOption_eq_some_iff.mpr hevent]

theorem vxid_of_eventOfRow {row : Row} {e : Event} (h : eventOfRow row = .ok (some e)) :
    e.vxid = row.vxid := by
  unfold eventOfRow at h
  split at h
  · cases h
  · split at h
    · cases h
    · rw [← toOption_eq_some_iff, toOption_map] at h
      obtain ⟨kind, -, hkind⟩ := Option.map_eq_some_iff.mp h
      cases hkind
      rfl

structure SqlCall where
  sql : String
  params : List Value
  time : Int64
  deriving DecidableEq

inductive SessionTransaction where
  | implicit (call : SqlCall)
  | explicit (time : Int64) (calls : List SqlCall) (ended : Int64) (rolledBack : Bool)
  deriving DecidableEq

def SessionTransaction.calls : SessionTransaction → List SqlCall
  | implicit call => [call]
  | explicit _ calls _ _ => calls

/-- Whether a session has an open transaction after some events, of which the last stands first. -/
def isOpenAfter (vxid : String) : List Event → Bool
  | [] => false
  | e :: before =>
    if e.vxid = vxid then
      match e.kind with
      | .begin => true
      | .close _ => false
      | .statement _ _ => isOpenAfter vxid before
    else isOpenAfter vxid before

/-- The statements of a session up to the event that closes its transaction, the time of that event
and whether it is a rollback. -/
def block? (vxid : String) : List Event → Option (List SqlCall × Int64 × Bool)
  | [] => none
  | e :: after =>
    if e.vxid = vxid then
      match e.kind with
      | .begin => none
      | .close rolledBack => some ([], e.time, rolledBack)
      | .statement sql params =>
        (block? vxid after).map fun (calls, closing) => (⟨sql, params, e.time⟩ :: calls, closing)
    else block? vxid after

/-- The transaction that starts with an event, given the events before (the last one first) and
after it. -/
def transactionAt? (before : List Event) (e : Event) (after : List Event) :
    Option SessionTransaction :=
  match e.kind with
  | .begin =>
    (block? e.vxid after).map fun (calls, ended, rolledBack) =>
      .explicit e.time calls ended rolledBack
  | .close _ => none
  | .statement sql params =>
    if isOpenAfter e.vxid before then none else some (.implicit ⟨sql, params, e.time⟩)

/-- The transactions that start with some events, given the events before, the last one first. -/
def transactionsFrom (before : List Event) : List Event → List SessionTransaction
  | [] => []
  | e :: after => (transactionAt? before e after).toList ++ transactionsFrom (e :: before) after

def events (log : List UInt8) : List Event := (rows log).1.filterMap eventOfRow?

/-- The transactions of a log, in the order in which they start. -/
def sessionTransactions (log : List UInt8) : List SessionTransaction :=
  transactionsFrom [] (events log)

def Event.sql? (e : Event) : Option String :=
  match e.kind with
  | .statement sql _ => some sql
  | _ => none

def statementTexts (log : List UInt8) : List String := (events log).filterMap Event.sql?

/-- A loaded call is that of a logged one, by the key of its text. -/
def SqlCall.IsLoadedAs (statements : StatementTable) (c : SqlCall) (call : Call) : Prop :=
  ∃ key, statements.resolve key = some c.sql ∧ call = .ofStatement key c.params c.time

/-- A loaded transaction is that of a session. -/
inductive SessionTransaction.IsLoadedAs (statements : StatementTable) :
    SessionTransaction → Transaction → Prop where
  | implicit {c : SqlCall} {call : Call} (h : c.IsLoadedAs statements call) :
      IsLoadedAs statements (.implicit c) (.implicit call)
  | explicit {calls : List SqlCall} {loaded : List Call} {time ended : Int64} {rolledBack : Bool}
      (h : List.Forall₂ (SqlCall.IsLoadedAs statements) calls loaded) :
      IsLoadedAs statements (.explicit time calls ended rolledBack)
        ⟨.explicit (some rolledBack), time, loaded ++ [.ofEnd ended]⟩

end WorkloadReplay.Log
