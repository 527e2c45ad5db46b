import WorkloadReplay.Manager
import WorkloadReplay.Proofs.ScanFaults

/-!
# Where faults come from

Reading a trace, interpreting a log and using a file each have faults of their own. So the fault of
a manager tells at which stage its loading has failed.
-/

namespace WorkloadReplay

/-- A fault of the bytes of a trace or of their source. -/
def Fault.ofTrace : Fault → Bool
  | .source _ | .invalidHex _ | .malformedRecord _ _ | .unknownTypeTag _ | .invalidParamValue _ _
  | .truncatedRecord _ | .unresolvedStatement _ | .duplicateStatementId _
  | .duplicateBegin (.record _) | .endWithoutBegin (.record _) | .incompleteTransaction => true
  | _ => false

def Fault.ofLog : Fault → Bool
  | .invalidTimestamp _ | .malformedLogRow _ _ | .duplicateBegin (.session _)
  | .endWithoutBegin (.session _) => true
  | _ => false

def Fault.ofFile : Fault → Bool
  | .storage _ | .fileNotFound _ => true
  | _ => false

theorem Fault.ofTrace_of_ofBytes {fault : Fault} (h : fault.ofBytes = true) :
    fault.ofTrace = true := by
  cases fault with
  | invalidHex raw => rfl
  | unknownTypeTag tag => rfl
  | invalidParamValue tag raw => rfl
  | _ => cases h

namespace Trace

/-! Reading. -/

namespace Reader

theorem onlyFaults_refill (r : Reader) : OnlyFaults Fault.ofTrace r.refill.2 := by
  unfold refill
  split
  · exact onlyFaults_ok _
  · dsimp only
    split
    · exact onlyFaults_ok _
    · exact onlyFaults_ok _
    · exact onlyFaults_error rfl

theorem onlyFaults_ensureAvailable (r : Reader) :
    OnlyFaults Fault.ofTrace r.ensureAvailable.2 := by
  unfold ensureAvailable
  split
  · exact onlyFaults_refill r
  · exact onlyFaults_ok _

theorem onlyFaults_readItem {α : Type} {scan : List UInt8 → Scan α}
    (hscan : ∀ b, (scan b).OnlyFaults Fault.ofBytes) (r : Reader) :
    OnlyFaults Fault.ofTrace (r.readItem scan).2 := by
  fun_induction readItem scan r with
  | case1 => exact onlyFaults_ok _
  | case2 => exact onlyFaults_error rfl
  | case3 r fault hs => exact onlyFaults_error (Fault.ofTrace_of_ofBytes (hscan _ fault hs))
  | case4 r hs r' hrefill ih => exact ih
  | case5 => exact onlyFaults_error rfl
  | case6 r hs r' fault hrefill => exact (onlyFaults_refill r).of_eq hrefill

theorem onlyFaults_readRecord (r : Reader) : OnlyFaults Fault.ofTrace r.readRecord.2 := by
  unfold readRecord
  split
  · rename_i h
    exact (onlyFaults_ensureAvailable r).of_eq h
  · exact onlyFaults_ok _
  · split
    · exact onlyFaults_ok _
    · split
      · exact onlyFaults_ok _
      · rename_i h
        exact (onlyFaults_readItem Record.onlyFaults_scan _).of_eq h

theorem onlyFaults_readEntry (r : Reader) : OnlyFaults Fault.ofTrace r.readEntry.2 := by
  unfold readEntry
  split
  · rename_i h
    exact (onlyFaults_ensureAvailable r).of_eq h
  · exact onlyFaults_ok _
  · split
    · exact onlyFaults_ok _
    · rename_i h
      exact (onlyFaults_readItem Entry.onlyFaults_scan _).of_eq h

theorem onlyFaults_atSectionDelimiter (r : Reader) :
    OnlyFaults Fault.ofTrace r.atSectionDelimiter.2 := by
  unfold atSectionDelimiter
  split
  · rename_i h
    exact (onlyFaults_ensureAvailable r).of_eq h
  · exact onlyFaults_ok _
  · exact onlyFaults_ok _

theorem onlyFaults_skipSectionDelimiter (r : Reader) :
    OnlyFaults Fault.ofTrace r.skipSectionDelimiter.2 := by
  unfold skipSectionDelimiter
  split
  · rename_i h
    exact (onlyFaults_atSectionDelimiter r).of_eq h
  · exact onlyFaults_ok _
  · split
    · rename_i h
      exact (onlyFaults_ensureAvailable _).of_eq h
    · exact onlyFaults_ok _
    · split
      · exact onlyFaults_ok _
      · exact onlyFaults_error rfl

end Reader

/-! Loading. -/

theorem Loading.onlyFaults_close (s : Loading) (time : Int64) (abort : Bool) :
    OnlyFaults Fault.ofTrace (s.close time abort) := by
  unfold close
  split
  · exact onlyFaults_error rfl
  · exact onlyFaults_ok _

theorem Loading.onlyFaults_step (s : Loading) (record : Record) :
    OnlyFaults Fault.ofTrace (s.step record) := by
  unfold step
  dsimp only
  split
  · split
    · exact onlyFaults_error rfl
    · exact onlyFaults_ok _
  · exact onlyFaults_close _ _ _
  · exact onlyFaults_close _ _ _
  · exact onlyFaults_ok _
  · exact onlyFaults_ok _

theorem onlyFaults_loadRecords (r : Reader) (s : Loading) :
    OnlyFaults Fault.ofTrace (loadRecords r s).2 := by
  fun_induction loadRecords r s with
  | case1 r s r' fault hread => exact r.onlyFaults_readRecord.of_eq hread
  | case2 => exact onlyFaults_ok _
  | case3 => exact onlyFaults_error rfl
  | case4 r s r' record hread hblank fault hstep =>
    exact onlyFaults_error (s.onlyFaults_step record fault hstep)
  | case5 r s r' record hread hblank s' hstep ih => exact ih

theorem onlyFaults_insert (t : StatementTable) (id : UInt32) (sql : String) :
    OnlyFaults Fault.ofTrace (t.insert id sql) := by
  unfold StatementTable.insert
  split
  · exact onlyFaults_error rfl
  · exact onlyFaults_ok _

theorem onlyFaults_loadEntries (r : Reader) (t : StatementTable) :
    OnlyFaults Fault.ofTrace (loadEntries r t) := by
  fun_induction loadEntries r t with
  | case1 r t r' fault hread => exact r.onlyFaults_readEntry.of_eq hread
  | case2 => exact onlyFaults_ok _
  | case3 r t r' entry hread fault hinsert =>
    exact onlyFaults_error (onlyFaults_insert t _ _ fault hinsert)
  | case4 r t r' entry hread t' hinsert ih => exact ih

theorem onlyFaults_load (source : Source) (capacity : Nat) :
    OnlyFaults Fault.ofTrace (load source capacity) := by
  unfold load
  refine (onlyFaults_loadRecords _ _).bind fun s => ?_
  by_cases hopened : s.opened.isSome = true
  · rw [if_pos hopened]
    have hincomplete : Fault.ofTrace .incompleteTransaction = true := rfl
    exact onlyFaults_error hincomplete
  rw [if_neg hopened]
  refine (Reader.onlyFaults_skipSectionDelimiter _).bind fun delimited => ?_
  cases delimited
  case' false => refine (onlyFaults_ok s.statements).bind fun statements => ?_
  case' true => refine (onlyFaults_loadEntries _ _).bind fun statements => ?_
  all_goals
    dsimp only
    split
    · exact onlyFaults_error rfl
    · exact onlyFaults_ok _

end Trace

/-! Interpreting a log. -/

namespace Log

theorem onlyFaults_paramsOfDetail (detail : String) (line : Nat) :
    OnlyFaults Fault.ofLog (paramsOfDetail detail line) := by
  unfold paramsOfDetail
  split
  · split
    · exact onlyFaults_ok _
    · exact onlyFaults_error rfl
  · exact onlyFaults_ok _

theorem Clock.onlyFaults_parse (c : Clock) (raw : String) :
    OnlyFaults Fault.ofLog (c.parse raw).2 := by
  unfold parse
  split
  · exact onlyFaults_ok _
  · exact onlyFaults_error rfl

theorem RowReader.onlyFaults_rowOfBytes (line : Nat) (row : List UInt8) :
    OnlyFaults Fault.ofLog (rowOfBytes line row) := by
  unfold rowOfBytes
  dsimp only
  split
  · exact onlyFaults_ok _
  · exact onlyFaults_error rfl

theorem RowReader.ofLog_of_next {r r' : RowReader} {fault : Fault}
    (h : r.next = (r', some (.error fault))) : fault.ofLog = true := by
  fun_induction RowReader.next r with
  | case1 => cases h
  | case2 => cases h
  | case3 =>
    cases h
    rfl
  | case4 r _ hb row rest htake hblank ih => exact ih h
  | case5 => cases h
  | case6 r _ hb row rest htake hblank found hrow =>
    cases h
    exact onlyFaults_rowOfBytes _ _ _ hrow

theorem ofLog_of_rows {log : List UInt8} {fault : Fault} (h : (rows log).2 = some fault) :
    fault.ofLog = true := by
  unfold rows at h
  generalize ([] : List Row) = taken at h
  generalize RowReader.ofBytes log = r at h
  fun_induction rowsFrom taken r with
  | case1 => cases h
  | case2 taken r r' found hnext =>
    cases h
    exact RowReader.ofLog_of_next hnext
  | case3 taken r r' row hnext ih => exact ih h

end Log

namespace Conversion

theorem onlyFaults_statement (c : Conversion) (row : Log.Row) (time : Int64) (sql : String) :
    OnlyFaults Fault.ofLog (c.statement row time sql) := by
  have hclose (rolledBack : Bool) : OnlyFaults Fault.ofLog (c.close row.vxid time rolledBack) := by
    unfold close
    split
    · exact onlyFaults_ok _
    · exact onlyFaults_error rfl
  unfold statement
  split
  · unfold start
    split
    · exact onlyFaults_error rfl
    · exact onlyFaults_ok _
  · exact hclose false
  · exact hclose true
  · exact (Log.onlyFaults_paramsOfDetail _ _).map _

theorem onlyFaults_step (c : Conversion) (row : Log.Row) : OnlyFaults Fault.ofLog (c.step row) := by
  unfold step
  dsimp only
  split
  · exact onlyFaults_ok _
  · split
    · rename_i hparse
      exact (c.clock.onlyFaults_parse row.logTime).of_eq hparse
    · exact onlyFaults_statement _ _ _ _

theorem onlyFaults_foldlM (rows : List Log.Row) (c : Conversion) :
    OnlyFaults Fault.ofLog (rows.foldlM step c) := by
  induction rows generalizing c with
  | nil => exact onlyFaults_ok _
  | cons row rows ih =>
    rw [List.foldlM_cons]
    exact (onlyFaults_step c row).bind ih

theorem onlyFaults_ofLog (log : List UInt8) : OnlyFaults Fault.ofLog (ofLog log) := by
  unfold ofLog
  refine (onlyFaults_foldlM _ _).bind fun c => ?_
  split
  · rename_i fault h
    exact onlyFaults_error (Log.ofLog_of_rows h)
  · exact onlyFaults_ok _

end Conversion

/-! Using files. -/

theorem FileSystem.onlyFaults_readExisting (fs : FileSystem) (path : String) :
    OnlyFaults Fault.ofFile (fs.readExisting path) := by
  unfold readExisting
  split
  · exact onlyFaults_ok _
  · exact onlyFaults_error rfl
  · exact onlyFaults_error rfl

theorem onlyFaults_loadPath (fs : FileSystem) (path : String) (capacity : Nat) :
    OnlyFaults (fun fault => fault.ofFile || fault.ofTrace) (loadPath fs path capacity) := by
  refine ((fs.onlyFaults_readExisting path).mono ?_).bind fun content =>
    (Trace.onlyFaults_load _ _).mono ?_
  · intro fault h
    rw [h, Bool.true_or]
  · intro fault h
    rw [h, Bool.or_true]

theorem Conversion.onlyFaults_convert (fs : FileSystem) (source dest : String) :
    OnlyFaults (fun fault => fault.ofFile || fault.ofLog) (convert fs source dest).2 := by
  unfold convert
  split
  · rename_i fault h
    exact onlyFaults_error (Bool.or_eq_true_iff.mpr (.inl (fs.onlyFaults_readExisting _ _ h)))
  · split
    · rename_i fault h
      exact onlyFaults_error (Bool.or_eq_true_iff.mpr (.inr (onlyFaults_ofLog _ _ h)))
    · split
      · exact onlyFaults_error rfl
      · exact onlyFaults_ok _

end WorkloadReplay
