import WorkloadReplay.Double.Text
import WorkloadReplay.Text.Basic

/-!
# What can go wrong

One value for each cause of failure in converting, loading and replaying, and `Fault.message`, the
only place where their wording stands.
-/

namespace WorkloadReplay

inductive ConfigProblem where
  | emptyLogPath
  | speedup (value : Double)
  | noWorkers
  | smallBuffer (least : Nat)
  | traceExtension (path : String) (extension : String)
  deriving DecidableEq

inductive TraceProblem where
  | timestampEnd
  | tagNotQuoted
  | tagEnd
  | paramsNotQuoted
  | recordEnd
  | idOutOfRange
  | textNotUtf8
  | entryStart
  | entryNotQuoted
  | entryEnd
  | delimiterNotAlone
  | emptyStatement
  deriving DecidableEq

inductive DetailProblem where
  | noDollar
  | noNumber
  | noEquals
  | noValue
  | notClosed
  deriving DecidableEq

inductive RowProblem where
  | notClosed
  | tooFewColumns (least found : Nat)
  | detail (problem : DetailProblem)
  deriving DecidableEq

inductive StorageProblem where
  | noSuchFile
  | notADirectory
  | isADirectory
  | fileExists
  | nameTooLong
  | invalidName
  | nulInName
  deriving DecidableEq

/-- How a transaction is called where it fails: by the virtual transaction id of its session, or by
the record of the trace that shows the failure. -/
inductive TransactionName where
  | session (vxid : String)
  | record (number : Nat)
  deriving DecidableEq

inductive Fault where
  | source (reason : String)
  | storage (problem : StorageProblem)
  | fileNotFound (path : String)
  | missingInputs (log trace : String)
  | invalidConfig (problem : ConfigProblem)
  | invalidHex (raw : String)
  | invalidTimestamp (raw : String)
  | malformedRecord (offset : Nat) (problem : TraceProblem)
  | unknownTypeTag (tag : UInt8)
  | invalidParamValue (tag : UInt8) (raw : String)
  | truncatedRecord (remaining : Nat)
  | unresolvedStatement (id : UInt32)
  | duplicateStatementId (id : UInt32)
  | duplicateBegin (name : TransactionName)
  | endWithoutBegin (name : TransactionName)
  | incompleteTransaction
  | malformedLogRow (line : Nat) (problem : RowProblem)
  | abortFlagUnset
  | abortFlagAlreadySet
  | notLoaded
  | alreadyLoaded
  | execution (index : Nat) (reason : String)
  deriving DecidableEq

def ConfigProblem.message : ConfigProblem → String
  | .emptyLogPath => "log_path is empty"
  | .speedup value =>
    "speedup must be a positive finite number, got " ++ Text.ofAscii value.text
  | .noWorkers => "workers must be at least 1"
  | .smallBuffer least => s!"read_buffer_capacity must be at least {least} bytes"
  | .traceExtension path extension => s!"log path {path} already has the .{extension} extension"

def TraceProblem.message : TraceProblem → String
  | .timestampEnd => "timestamp must be hex followed by ','"
  | .tagNotQuoted => "tag field must be quoted"
  | .tagEnd => "missing ',' after tag field"
  | .paramsNotQuoted => "params field must be quoted"
  | .recordEnd => "record must end after params field"
  | .idOutOfRange => "statement id out of range"
  | .textNotUtf8 => "statement text is not valid UTF-8"
  | .entryStart => "string table line must start with '<id>,'"
  | .entryNotQuoted => "statement text must be quoted"
  | .entryEnd => "string table line must end after text"
  | .delimiterNotAlone => "section delimiter must be alone on its line"
  | .emptyStatement => "empty statement text"

def DetailProblem.message : DetailProblem → String
  | .noDollar => "expected '$<n>'"
  | .noNumber => "missing parameter number"
  | .noEquals => "expected ' = '"
  | .noValue => "expected quoted value or NULL"
  | .notClosed => "unterminated quoted value"

def RowProblem.message : RowProblem → String
  | .notClosed => "unterminated quoted field at end of file"
  | .tooFewColumns least found => s!"expected at least {least} columns, found {found}"
  | .detail problem => problem.message ++ " in parameters detail"

def StorageProblem.message : StorageProblem → String
  | .noSuchFile => "no such file or directory"
  | .notADirectory => "not a directory"
  | .isADirectory => "is a directory"
  | .fileExists => "file exists"
  | .nameTooLong => "file name too long"
  | .invalidName => "invalid argument"
  | .nulInName => "file name contained an unexpected NUL byte"

def TransactionName.message : TransactionName → String
  | .session vxid => vxid
  | .record number => s!"trace record #{number}"

/-- The tag of a parameter, shown as the character with the number of its byte. -/
def tagText (tag : UInt8) : String := Text.ofAscii [tag]

def Fault.message : Fault → String
  | .source reason => s!"I/O error: {reason}"
  | .storage problem => "I/O error: " ++ problem.message
  | .fileNotFound path => s!"file not found or inaccessible: {path}"
  | .missingInputs log trace =>
    s!"neither the log file ({log}) nor the trace file ({trace}) exists"
  | .invalidConfig problem => "invalid config: " ++ problem.message
  | .invalidHex raw => s!"invalid hex timestamp: '{raw}'"
  | .invalidTimestamp raw => s!"invalid log timestamp: '{raw}'"
  | .malformedRecord offset problem =>
    s!"malformed trace record at offset {offset}: " ++ problem.message
  | .unknownTypeTag tag => "unknown parameter type tag '" ++ tagText tag ++ "'"
  | .invalidParamValue tag raw =>
    "invalid value for parameter type '" ++ tagText tag ++ s!"': '{raw}'"
  | .truncatedRecord remaining =>
    s!"trace ends with a truncated record ({remaining} unconsumed bytes)"
  | .unresolvedStatement id =>
    s!"statement id {id} is referenced but missing from the string table"
  | .duplicateStatementId id => s!"statement id {id} appears twice in the string table"
  | .duplicateBegin name => "BEGIN for already open transaction '" ++ name.message ++ "'"
  | .endWithoutBegin name =>
    "COMMIT or ROLLBACK without an open transaction '" ++ name.message ++ "'"
  | .incompleteTransaction => "trace records section ends inside an explicit transaction"
  | .malformedLogRow line problem => s!"malformed log row at line {line}: " ++ problem.message
  | .abortFlagUnset => "abort flag read before COMMIT or ROLLBACK was seen"
  | .abortFlagAlreadySet => "abort flag set twice"
  | .notLoaded => "replay queue accessed before a successful load()"
  | .alreadyLoaded => "load() called more than once"
  | .execution index reason => s!"statement #{index} failed: {reason}"

theorem bind_eq_ok_iff {α β : Type} {x : Except Fault α} {f : α → Except Fault β} {b : β} :
    (x >>= f) = .ok b ↔ ∃ a, x = .ok a ∧ f a = .ok b := by
  cases x with
  | error fault => simp [bind, Except.bind]
  | ok a => simp [bind, Except.bind]

theorem toOption_eq_some_iff {α : Type} {x : Except Fault α} {a : α} :
    x.toOption = some a ↔ x = .ok a := by
  cases x with
  | error fault => simp [Except.toOption]
  | ok b => simp [Except.toOption]

theorem toOption_map {α β : Type} (f : α → β) (x : Except Fault α) :
    (x.map f).toOption = x.toOption.map f := by
  cases x with
  | error fault => rfl
  | ok a => rfl

end WorkloadReplay
