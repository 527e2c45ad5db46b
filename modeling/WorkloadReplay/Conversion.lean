import WorkloadReplay.FileSystem
import WorkloadReplay.Log.Statement
import WorkloadReplay.Log.Row
import WorkloadReplay.Log.Timestamp
import WorkloadReplay.Trace.Entry
import WorkloadReplay.Trace.Record

/-!
# Converting a log to a trace

The rows of a log come from many sessions at once. Conversion gathers the statements of each
transaction by the virtual transaction id of its session, gives each text of a statement an id, and
writes the transactions in the order in which they started, then the texts. A transaction that is
still open at the end of the log is left out. A virtual id may be used again once its transaction
has ended.
-/

namespace WorkloadReplay

structure LoggedCall where
  time : Int64
  id : UInt32
  params : List Value
  deriving DecidableEq

/-- How far a transaction has come: one statement alone, opened, or closed at a time. -/
inductive LoggedState where
  | implicit
  | opened
  | closed (time : Int64) (rolledBack : Bool)
  deriving DecidableEq

/-- A transaction as far as it has been logged; its last call stands first. -/
structure LoggedTransaction where
  vxid : String
  time : Int64
  state : LoggedState
  calls : List LoggedCall
  deriving DecidableEq

namespace LoggedTransaction

def isOpen (t : LoggedTransaction) : Bool :=
  match t.state with
  | .opened => true
  | _ => false

def isOpenFor (t : LoggedTransaction) (vxid : String) : Bool := t.isOpen && t.vxid = vxid

def callRecord (c : LoggedCall) : Trace.Record := ⟨c.time, .id c.id, c.params⟩

/-- The records of a transaction; one that is open is left out of the trace. -/
def records (t : LoggedTransaction) : List Trace.Record :=
  match t.state with
  | .opened => []
  | .implicit => t.calls.reverse.map callRecord
  | .closed time rolledBack =>
    ⟨t.time, .begin, []⟩ :: (t.calls.reverse.map callRecord ++
      [⟨time, if rolledBack then .rollback else .commit, []⟩])

end LoggedTransaction

theorem idxOf?_push (texts : Array String) (sql s : String) : (texts.push sql).idxOf? s =
    (texts.idxOf? s).or (if sql = s then some texts.size else none) := by
  obtain ⟨l⟩ := texts
  have hpush : (l.toArray.push sql).idxOf? s = (l ++ [sql]).findIdx? (· == s) := by
    rw [List.push_toArray, List.idxOf?_toArray]
    rfl
  rw [hpush, List.findIdx?_append, List.idxOf?_toArray]
  by_cases h : sql = s
  · simp [h, List.idxOf?]
  · simp [h, List.idxOf?]

/-- The ids of texts, the last given first, and the texts in the order of their ids. The id of a
text is its place. -/
structure Interner where
  ids : List (String × UInt32)
  texts : Array String
  lookup_ids (sql : String) : ids.lookup sql = (texts.idxOf? sql).map UInt32.ofNat

namespace Interner

def empty : Interner := ⟨[], #[], fun _ => by simp⟩

def add (i : Interner) (sql : String) (h : i.ids.lookup sql = none) : Interner where
  ids := (sql, UInt32.ofNat i.texts.size) :: i.ids
  texts := i.texts.push sql
  lookup_ids s := by
    rw [idxOf?_push, List.lookup_cons]
    by_cases hs : s = sql
    · subst hs
      have hnone : i.texts.idxOf? s = none := by
        rwa [i.lookup_ids, Option.map_eq_none_iff] at h
      rw [beq_self_eq_true, hnone]
      simp
    · rw [beq_eq_false_iff_ne.mpr hs, if_neg (Ne.symm hs), Option.or_none]
      exact i.lookup_ids s

def intern (i : Interner) (sql : String) : Interner × UInt32 :=
  match h : i.ids.lookup sql with
  | some id => (i, id)
  | none => (i.add sql h, UInt32.ofNat i.texts.size)

end Interner

/-- What has been gathered from the rows so far: how many there were and how many told of no
statement, the transactions, the last that started first, and the texts with their ids. -/
structure Conversion where
  clock : Log.Clock
  rows : Nat
  skipped : Nat
  transactions : List LoggedTransaction
  interner : Interner

namespace Conversion

def initial : Conversion := ⟨.new, 0, 0, [], .empty⟩

abbrev texts (c : Conversion) : Array String := c.interner.texts

def isOpen (c : Conversion) (vxid : String) : Bool := c.transactions.any (·.isOpenFor vxid)

/-- Changes the first transaction that is open under a virtual id. -/
def updateFirst (vxid : String) (change : LoggedTransaction → LoggedTransaction) :
    List LoggedTransaction → List LoggedTransaction
  | [] => []
  | t :: rest =>
    if t.isOpenFor vxid then change t :: rest else t :: updateFirst vxid change rest

def updateOpen (c : Conversion) (vxid : String) (change : LoggedTransaction → LoggedTransaction) :
    Conversion :=
  { c with transactions := updateFirst vxid change c.transactions }

def add (c : Conversion) (t : LoggedTransaction) : Conversion :=
  { c with transactions := t :: c.transactions }

def intern (c : Conversion) (sql : String) : Conversion × UInt32 :=
  let (interner, id) := c.interner.intern sql
  ({ c with interner := interner }, id)

def start (c : Conversion) (vxid : String) (time : Int64) : Except Fault Conversion :=
  if c.isOpen vxid then .error (.duplicateBegin (.session vxid))
  else .ok (c.add ⟨vxid, time, .opened, []⟩)

def close (c : Conversion) (vxid : String) (time : Int64) (rolledBack : Bool) :
    Except Fault Conversion :=
  if c.isOpen vxid then
    .ok (c.updateOpen vxid fun t => { t with state := .closed time rolledBack })
  else .error (.endWithoutBegin (.session vxid))

/-- Adds a call to the open transaction of its session, or as a transaction of its own. -/
def call (c : Conversion) (vxid : String) (call : LoggedCall) : Conversion :=
  if c.isOpen vxid then c.updateOpen vxid fun t => { t with calls := call :: t.calls }
  else c.add ⟨vxid, call.time, .implicit, [call]⟩

/-- Adds a statement that a row tells of, at a time. -/
def statement (c : Conversion) (row : Log.Row) (time : Int64) (sql : String) :
    Except Fault Conversion :=
  match Log.classify sql with
  | .begin => c.start row.vxid time
  | .commit => c.close row.vxid time false
  | .rollback => c.close row.vxid time true
  | .statement =>
    (Log.paramsOfDetail row.detail row.line).map fun params =>
      let (c, id) := c.intern sql
      c.call row.vxid ⟨time, id, params⟩

def step (c : Conversion) (row : Log.Row) : Except Fault Conversion :=
  let c := { c with rows := c.rows + 1 }
  match Log.sqlOfMessage? row.message with
  | none => .ok { c with skipped := c.skipped + 1 }
  | some sql =>
    match c.clock.parse row.logTime with
    | (_, .error fault) => .error fault
    | (clock, .ok time) => { c with clock := clock }.statement row time sql

def ofRows (rows : List Log.Row) : Except Fault Conversion := rows.foldlM step initial

/-- Gathers the rows of a log. The first fault counts, in the gathering of a row or in the reading
of the one after it. -/
def ofLog (log : List UInt8) : Except Fault Conversion := do
  let (rows, fault) := Log.rows log
  let c ← ofRows rows
  match fault with
  | some fault => throw fault
  | none => return c

def entries (c : Conversion) : List Trace.Entry :=
  c.texts.toList.zipIdx.map fun (sql, index) => ⟨UInt32.ofNat index, sql⟩

/-- The records of the transactions that are not left out. -/
def records (c : Conversion) : List Trace.Record := c.transactions.reverse.flatMap (·.records)

def trace (c : Conversion) : List UInt8 :=
  c.records.flatMap Trace.Record.encode ++ Trace.delimiterLine ++
    c.entries.flatMap Trace.Entry.encode

structure Summary where
  rows : Nat
  skipped : Nat
  written : Nat
  dropped : Nat
  interned : Nat
  deriving DecidableEq

def summary (c : Conversion) : Summary where
  rows := c.rows
  skipped := c.skipped
  written := c.transactions.countP fun t => !t.isOpen
  dropped := c.transactions.countP (·.isOpen)
  interned := c.texts.size

/-- Converts the log at a path to a trace at another. If the log cannot be converted, nothing
changes. -/
def convert (fs : FileSystem) (source dest : String) : FileSystem × Except Fault Summary :=
  match fs.readExisting source with
  | .error fault => (fs, .error fault)
  | .ok log =>
    match ofLog log with
    | .error fault => (fs, .error fault)
    | .ok c =>
      match fs.replace dest c.trace with
      | (fs, .error problem) => (fs, .error (.storage problem))
      | (fs, .ok ()) => (fs, .ok c.summary)

end Conversion

end WorkloadReplay
