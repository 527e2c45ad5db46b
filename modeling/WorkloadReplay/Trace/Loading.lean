import WorkloadReplay.Queue
import WorkloadReplay.Text.Basic
import WorkloadReplay.Trace.Reader

/-!
# Loading a trace

Loading gathers the records into transactions: what stands between the start and the end of one is
explicit, and each statement outside of these a transaction of its own. Then the statement table is
read, in which every id that a record refers to has to have a text that is not blank.
-/

namespace WorkloadReplay.Trace

/-- An explicit transaction whose end has not been read; its last call stands first. -/
structure OpenTransaction where
  time : Int64
  calls : List Call

def OpenTransaction.close (t : OpenTransaction) (time : Int64) (abort : Bool) : Transaction :=
  ⟨.explicit (some abort), t.time, (Call.ofEnd time :: t.calls).reverse⟩

/-- What has been loaded from the records so far: the transactions, the last of them first, and the
ids that records referred to. -/
structure Loading where
  transactions : List Transaction
  statements : StatementTable
  referenced : List UInt32
  opened : Option OpenTransaction
  records : Nat

namespace Loading

def initial : Loading := ⟨[], .empty, [], none, 0⟩

/-- Adds the call of a statement to the open transaction, or as a transaction of its own. -/
def call (s : Loading) (call : Call) : Loading :=
  match s.opened with
  | some t => { s with opened := some { t with calls := call :: t.calls } }
  | none => { s with transactions := .implicit call :: s.transactions }

def close (s : Loading) (time : Int64) (abort : Bool) : Except Fault Loading :=
  match s.opened with
  | none => .error (.endWithoutBegin (.record s.records))
  | some t => .ok { s with opened := none, transactions := t.close time abort :: s.transactions }

def step (s : Loading) (record : Record) : Except Fault Loading :=
  let s := { s with records := s.records + 1 }
  match record.tag with
  | .begin =>
    if s.opened.isSome then .error (.duplicateBegin (.record s.records))
    else .ok { s with opened := some ⟨record.time, []⟩ }
  | .commit => s.close record.time false
  | .rollback => s.close record.time true
  | .id id =>
    .ok ({ s with referenced := id :: s.referenced }.call
      (.ofStatement (.interned id) record.params record.time))
  | .inline sql =>
    let (statements, key) := s.statements.push sql
    .ok ({ s with statements := statements }.call (.ofStatement key record.params record.time))

end Loading

/-- Adds all records that are left. A blank statement is a fault at the end of its record. -/
def loadRecords (r : Reader) (s : Loading) : Reader × Except Fault Loading :=
  match _h : r.readRecord with
  | (r, .error fault) => (r, .error fault)
  | (r, .ok none) => (r, .ok s)
  | (r, .ok (some record)) =>
    if record.isBlank then (r, .error (.malformedRecord r.cursor .emptyStatement))
    else
      match s.step record with
      | .error fault => (r, .error fault)
      | .ok s => loadRecords r s
termination_by r.remaining
decreasing_by exact Reader.remaining_readRecord_lt _h

def loadEntries (r : Reader) (statements : StatementTable) : Except Fault StatementTable :=
  match _h : r.readEntry with
  | (_, .error fault) => .error fault
  | (_, .ok none) => .ok statements
  | (r, .ok (some entry)) =>
    match statements.insert entry.id entry.sql with
    | .error fault => .error fault
    | .ok statements => loadEntries r statements
termination_by r.remaining
decreasing_by exact Reader.remaining_readEntry_lt _h

def hasText (statements : StatementTable) (id : UInt32) : Bool :=
  match statements.interned? id with
  | some sql => !Text.blank sql
  | none => false

/-- The least id that has no text. -/
def unresolved? (statements : StatementTable) (ids : List UInt32) : Option UInt32 :=
  (ids.filter fun id => !hasText statements id).min?

/-- The queue of the transactions in a trace. -/
def load (source : Source) (capacity : Nat) : Except Fault Queue := do
  let (r, s) := loadRecords (.ofSource source capacity) .initial
  let s ← s
  if s.opened.isSome then throw .incompleteTransaction
  let (r, delimited) := r.skipSectionDelimiter
  let statements ← if ← delimited then loadEntries r s.statements else pure s.statements
  match unresolved? statements s.referenced with
  | some id => throw (.unresolvedStatement id)
  | none => return ⟨s.transactions.reverse, statements⟩

end WorkloadReplay.Trace
