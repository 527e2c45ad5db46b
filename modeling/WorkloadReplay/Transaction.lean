import WorkloadReplay.Fault
import WorkloadReplay.Value.Basic

/-!
# Transactions to replay

The texts of the statements of a workload stand in a table. A statement is known by a key: an
interned statement by the id that the trace gives it, an inline statement by its place among the
inline statements. The two kinds of keys never meet.

A transaction is the calls of statements that a session made as one unit. An explicit transaction
was opened by the session and ends with a mark; whether it was rolled back is known only once that
mark was seen. An implicit transaction is made of one call and is never rolled back.
-/

namespace WorkloadReplay

/-! ## Statements -/

/-- What stands for a statement. -/
inductive StatementKey where
  | interned (id : UInt32)
  | inline (index : UInt32)
  deriving DecidableEq

/-- The number of a key, whatever its kind. -/
def StatementKey.number : StatementKey → UInt32
  | interned id => id
  | inline index => index

/-- The texts of statements: the interned ones with their ids, the last inserted first, and the
inline ones in the order of their insertion. -/
structure StatementTable where
  interned : List (UInt32 × String)
  inline : Array String
  deriving DecidableEq

namespace StatementTable

def empty : StatementTable := ⟨[], #[]⟩

def interned? (t : StatementTable) (id : UInt32) : Option String := t.interned.lookup id

def insert (t : StatementTable) (id : UInt32) (sql : String) : Except Fault StatementTable :=
  if (t.interned? id).isSome then .error (.duplicateStatementId id)
  else .ok { t with interned := (id, sql) :: t.interned }

/-- Adds an inline statement, and gives its key. -/
def push (t : StatementTable) (sql : String) : StatementTable × StatementKey :=
  ({ t with inline := t.inline.push sql }, .inline (UInt32.ofNat t.inline.size))

def resolve (t : StatementTable) : StatementKey → Option String
  | .interned id => t.interned? id
  | .inline index => t.inline[index.toNat]?

def entries (t : StatementTable) : List (UInt32 × String) :=
  t.interned.mergeSort fun a b => a.1 ≤ b.1

end StatementTable

/-! ## Transactions -/

/-- What a call is of: a statement, or the end of an explicit transaction. -/
inductive CallTarget where
  | statement (key : StatementKey)
  | «end»
  deriving DecidableEq

structure Call where
  target : CallTarget
  params : List Value
  time : Int64
  deriving DecidableEq

def Call.ofStatement (key : StatementKey) (params : List Value) (time : Int64) : Call :=
  ⟨.statement key, params, time⟩

def Call.ofEnd (time : Int64) : Call := ⟨.end, [], time⟩

/-- How a transaction was opened, and whether an explicit one is to be rolled back, once known. -/
inductive TransactionKind where
  | implicit
  | explicit (abort : Option Bool)
  deriving DecidableEq

/-- The calls that a session made as one unit. -/
structure Transaction where
  kind : TransactionKind
  firstTime : Int64
  calls : List Call
  deriving DecidableEq

namespace Transaction

def explicit (time : Int64) : Transaction := ⟨.explicit none, time, []⟩

def implicit (call : Call) : Transaction := ⟨.implicit, call.time, [call]⟩

def isExplicit (t : Transaction) : Bool :=
  match t.kind with
  | .implicit => false
  | .explicit _ => true

def push (t : Transaction) (call : Call) : Transaction := { t with calls := t.calls ++ [call] }

def pop (t : Transaction) : Option Call × Transaction :=
  (t.calls.head?, { t with calls := t.calls.tail })

def abort? (t : Transaction) : Option Bool :=
  match t.kind with
  | .implicit => some false
  | .explicit abort => abort

/-- Makes known whether the transaction is to be rolled back, which can be done once. -/
def setAbort (t : Transaction) (abort : Bool) : Except Fault Transaction :=
  match t.kind with
  | .explicit none => .ok { t with kind := .explicit (some abort) }
  | _ => .error .abortFlagAlreadySet

def shouldAbort (t : Transaction) : Except Fault Bool :=
  match t.abort? with
  | some abort => .ok abort
  | none => .error .abortFlagUnset

end Transaction

end WorkloadReplay
