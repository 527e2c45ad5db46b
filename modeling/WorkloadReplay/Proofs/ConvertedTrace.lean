import WorkloadReplay.Manager
import WorkloadReplay.Proofs.FileReplacement
import WorkloadReplay.Proofs.WrittenTrace

/-!
# Loading what a conversion has written

A log that has been converted is loaded as its transactions, from the file of the trace or in parts.
-/

namespace WorkloadReplay.Conversion
open Log Trace

variable {fs later : FileSystem} {source dest : String}

theorem convert_eq_ok {log : List UInt8} {summary : Summary}
    (hlog : fs.readExisting source = .ok log)
    (h : convert fs source dest = (later, .ok summary)) :
    ∃ c, ofLog log = .ok c ∧ fs.replace dest c.trace = (later, .ok ()) := by
  unfold convert at h
  rw [hlog] at h
  dsimp only at h
  split at h
  · cases h
  · rename_i c hc
    split at h
    · cases h
    · rename_i hreplace
      cases h
      exact ⟨c, hc, hreplace⟩

theorem reliable_bytes (b : List UInt8) : Source.Reliable [.bytes b] := by
  intro reason h
  cases List.mem_singleton.mp h

theorem loadPath_of_readExisting {content : List UInt8} {path : String}
    (h : fs.readExisting path = .ok content) (capacity : Nat) :
    loadPath fs path capacity = load [.bytes content] capacity := by
  unfold loadPath
  rw [h]
  rfl

/-- What a conversion has written is loaded as the transactions of the log, if no statement of these
is blank and the log has fewer different texts than there are ids. -/
theorem load_convert {log : List UInt8} {summary : Summary} (hroot : fs.Rooted)
    (hlog : fs.readExisting source = .ok log)
    (h : convert fs source dest = (later, .ok summary))
    (htexts : (statementTexts log).dedup.length < UInt32.size)
    (hblank : ∀ t ∈ sessionTransactions log, ∀ call ∈ t.calls, Text.blank call.sql = false) :
    ∃ trace queue, later.readExisting dest = .ok trace ∧
      (∀ capacity, loadPath later dest capacity = .ok queue) ∧
      (∀ s : Source, s.Reliable → s.bytes = trace → ∀ capacity, load s capacity = .ok queue) ∧
      List.Forall₂ (SessionTransaction.IsLoadedAs queue.statements) (sessionTransactions log)
        queue.transactions := by
  obtain ⟨c, hc, hreplace⟩ := convert_eq_ok hlog h
  have hread := FileSystem.readExisting_of_replace hroot hreplace
  obtain ⟨hload, hloaded⟩ := load_trace hc htexts hblank
  refine ⟨c.trace, c.loaded, hread, ?_, hload, hloaded⟩
  intro capacity
  rw [loadPath_of_readExisting hread]
  exact hload _ (reliable_bytes _) (List.append_nil _) capacity

/-- A log of two sessions, of which one rolls a transaction back. -/
def interleavedLog : List UInt8 := Text.bytes
  ("2023-11-12 13:06:58.721 UTC,,,,,,,,,4/7,,,,statement: BEGIN,\n" ++
    "2023-11-12 13:06:58.722 UTC,,,,,,,,,5/1,,,,statement: SELECT 2,\n" ++
    "2023-11-12 13:06:58.723 UTC,,,,,,,,,4/7,,,,statement: SELECT 1,\n" ++
    "2023-11-12 13:06:58.724 UTC,,,,,,,,,4/7,,,,statement: ROLLBACK,\n")

def interleavedFiles : FileSystem :=
  ((FileSystem.empty 0).write "pg.csv" interleavedLog none).1

def interleavedTransactions : List SessionTransaction :=
  [.explicit 1699794418721000000 [⟨"SELECT 1", [], 1699794418723000000⟩] 1699794418724000000 true,
    .implicit ⟨"SELECT 2", [], 1699794418722000000⟩]

theorem load_convert_interleaved :
    ∃ trace queue,
      (convert interleavedFiles "pg.csv" "pg.rply").1.readExisting "pg.rply" = .ok trace ∧
      (∀ capacity, loadPath (convert interleavedFiles "pg.csv" "pg.rply").1 "pg.rply" capacity =
        .ok queue) ∧
      (∀ s : Source, s.Reliable → s.bytes = trace → ∀ capacity, load s capacity = .ok queue) ∧
      List.Forall₂ (SessionTransaction.IsLoadedAs queue.statements) interleavedTransactions
        queue.transactions := by
  have hroot : interleavedFiles.Rooted := (FileSystem.rooted_empty 0).write _ _ _
  have hlog : interleavedFiles.readExisting "pg.csv" = .ok interleavedLog := by decide +kernel
  have hconvert : (convert interleavedFiles "pg.csv" "pg.rply").2 = .ok ⟨4, 0, 2, 0, 2⟩ := by
    decide +kernel
  have hmeaning : sessionTransactions interleavedLog = interleavedTransactions := by decide +kernel
  rw [← hmeaning]
  apply load_convert hroot hlog (Prod.ext rfl hconvert)
  · decide +kernel
  · decide +kernel

/-- What a conversion has written is loaded exactly if no statement of the transactions of the log
is blank. Otherwise loading refuses an id whose text is there, but blank. -/
theorem loadPath_convert_eq_ok_iff {log : List UInt8} {summary : Summary} (hroot : fs.Rooted)
    (hlog : fs.readExisting source = .ok log)
    (h : convert fs source dest = (later, .ok summary))
    (htexts : (statementTexts log).dedup.length < UInt32.size) :
    (∀ capacity, (∃ queue, loadPath later dest capacity = .ok queue) ↔
      ∀ t ∈ sessionTransactions log, ∀ call ∈ t.calls, Text.blank call.sql = false) ∧
    ((∃ t ∈ sessionTransactions log, ∃ call ∈ t.calls, Text.blank call.sql = true) →
      ∃ id, ∀ capacity, loadPath later dest capacity = .error (.unresolvedStatement id)) := by
  obtain ⟨c, hc, hreplace⟩ := convert_eq_ok hlog h
  have hread := FileSystem.readExisting_of_replace hroot hreplace
  have hsize := Nat.le_trans (size_texts_le hc) (Nat.le_of_lt htexts)
  have hblank := unresolved?_loadedTable_eq_none_iff hc hsize
  have hload (capacity : Nat) := load_trace_eq hc hsize (reliable_bytes c.trace)
    (List.append_nil _) capacity
  simp only [loadPath_of_readExisting hread, hload]
  cases hunresolved : unresolved? c.loadedTable (Trace.references c.records).reverse with
  | none =>
    have hall := hblank.mp hunresolved
    refine ⟨fun _ => iff_of_true ⟨c.loaded, rfl⟩ hall, ?_⟩
    rintro ⟨t, ht, call, hcall, hsql⟩
    rw [hall t ht call hcall] at hsql
    cases hsql
  | some id =>
    refine ⟨fun _ => iff_of_false nofun ?_, fun _ => ⟨id, fun _ => rfl⟩⟩
    intro hall
    rw [hblank.mpr hall] at hunresolved
    cases hunresolved

/-- A log of a statement without a text. -/
def blankLog : List UInt8 :=
  Text.bytes "2023-11-12 13:06:58.721 UTC,,,,,,,,,4/7,,,,statement: ,\n"

def blankFiles : FileSystem := ((FileSystem.empty 0).write "pg.csv" blankLog none).1

theorem loadPath_convert_blank :
    ∃ id, ∀ capacity,
      loadPath (convert blankFiles "pg.csv" "pg.rply").1 "pg.rply" capacity =
        .error (.unresolvedStatement id) := by
  have hroot : blankFiles.Rooted := (FileSystem.rooted_empty 0).write _ _ _
  have hlog : blankFiles.readExisting "pg.csv" = .ok blankLog := by decide +kernel
  have hconvert : (convert blankFiles "pg.csv" "pg.rply").2 = .ok ⟨1, 0, 1, 0, 1⟩ := by
    decide +kernel
  apply (loadPath_convert_eq_ok_iff hroot hlog (Prod.ext rfl hconvert) (by decide +kernel)).2
  have hmeaning : sessionTransactions blankLog = [.implicit ⟨"", [], 1699794418721000000⟩] := by
    decide +kernel
  rw [hmeaning]
  exact ⟨_, List.mem_singleton.mpr rfl, _, List.mem_singleton.mpr rfl, by decide⟩

/-- A conversion that succeeds can write a trace that is refused. -/
theorem loadPath_convert_refused :
    (convert blankFiles "pg.csv" "pg.rply").2 = .ok ⟨1, 0, 1, 0, 1⟩ ∧
      loadPath (convert blankFiles "pg.csv" "pg.rply").1 "pg.rply" 65536 =
        .error (.unresolvedStatement 0) := by
  decide +kernel

end WorkloadReplay.Conversion
