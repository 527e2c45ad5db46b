import WorkloadReplay.Proofs.SessionMeaning
import WorkloadReplay.Proofs.TraceMeaning
import Mathlib.Data.List.Dedup

/-!
# The trace of a log

The records of what has been gathered from a log are lines of the format, whose transactions are
those of the log. The statement table gives each of their ids its text.
-/

namespace WorkloadReplay.Conversion
open Log Trace

def loadedCall (c : LoggedCall) : Call := .ofStatement (.interned c.id) c.params c.time

def loaded? (t : LoggedTransaction) : Option Transaction :=
  match t.state with
  | .opened => none
  | .implicit => t.calls.head?.map fun c => .implicit (loadedCall c)
  | .closed ended rolledBack =>
    some ⟨.explicit (some rolledBack), t.time, t.calls.reverse.map loadedCall ++ [.ofEnd ended]⟩

def loadedTable (c : Conversion) : StatementTable := ⟨(c.entries.map Entry.binding).reverse, #[]⟩

def loaded (c : Conversion) : Queue := ⟨c.transactions.reverse.filterMap loaded?, c.loadedTable⟩

/-! A transaction as it is loaded, by how far it has come. -/

section

variable {t : LoggedTransaction} {call : LoggedCall} {ended : Int64} {rolledBack : Bool}

theorem loaded?_of_opened (h : t.state = .opened) : loaded? t = none := by rw [loaded?, h]

theorem loaded?_of_implicit (h : t.state = .implicit) (hcalls : t.calls = [call]) :
    loaded? t = some (.implicit (loadedCall call)) := by
  rw [loaded?, h, hcalls]
  rfl

theorem loaded?_of_closed (h : t.state = .closed ended rolledBack) :
    loaded? t = some ⟨.explicit (some rolledBack), t.time,
      t.calls.reverse.map loadedCall ++ [.ofEnd ended]⟩ := by rw [loaded?, h]

theorem finish?_of_opened (texts : Array String) (h : t.state = .opened) :
    finish? texts [] t = none := by
  rw [finish?, h]
  rfl

theorem finish?_of_implicit (texts : Array String) (h : t.state = .implicit)
    (hcalls : t.calls = [call]) :
    finish? texts [] t = some (.implicit (sqlCall texts call)) := by
  rw [finish?, h, hcalls]
  rfl

theorem finish?_of_closed (texts : Array String) (h : t.state = .closed ended rolledBack) :
    finish? texts [] t =
      some (.explicit t.time (t.calls.reverse.map (sqlCall texts)) ended rolledBack) := by
  rw [finish?, h]

end

/-! The records of a transaction. -/

theorem inlineTexts_callRecords (calls : List LoggedCall) :
    inlineTexts (calls.map LoggedTransaction.callRecord) = [] := by
  induction calls with
  | nil => rfl
  | cons call calls ih =>
    rw [List.map_cons, inlineTexts_cons, ih]
    rfl

theorem calls_callRecords (calls : List LoggedCall) :
    Calls 0 (calls.map LoggedTransaction.callRecord) (calls.map loadedCall) := by
  induction calls with
  | nil => exact .nil 0
  | cons call calls ih => exact .cons rfl ih

theorem parses_records {size : Nat} {ts : List LoggedTransaction} (h : ∀ t ∈ ts, Sane size t) :
    Parses 0 (ts.flatMap (·.records)) (ts.filterMap loaded?) := by
  induction ts with
  | nil => exact .nil 0
  | cons t ts ih =>
    have hts := ih fun t ht => h t (List.mem_cons_of_mem _ ht)
    rw [List.flatMap_cons]
    cases hstate : t.state with
    | opened =>
      rw [List.filterMap_cons_none (loaded?_of_opened hstate), LoggedTransaction.records, hstate]
      exact hts
    | implicit =>
      obtain ⟨call, hcalls⟩ := (h t List.mem_cons_self).single hstate
      rw [List.filterMap_cons_some (loaded?_of_implicit hstate hcalls)]
      rw [LoggedTransaction.records, hstate, hcalls]
      exact .implicit rfl hts
    | closed ended rolledBack =>
      rw [List.filterMap_cons_some (loaded?_of_closed hstate), LoggedTransaction.records, hstate]
      rw [List.cons_append, List.append_assoc]
      refine .explicit rfl (calls_callRecords _) rfl ?_
      rw [inlineTexts_callRecords]
      exact hts

theorem tag_of_mem_records {t : LoggedTransaction} {r : Record} (h : r ∈ t.records) :
    (r.tag.isBoundary = true ∧ r.params = []) ∨
      ∃ call ∈ t.calls, t.isOpen = false ∧ r = LoggedTransaction.callRecord call := by
  unfold LoggedTransaction.records at h
  cases hstate : t.state with
  | opened =>
    rw [hstate] at h
    cases h
  | implicit =>
    rw [hstate] at h
    obtain ⟨call, hcall, rfl⟩ := List.mem_map.mp h
    exact .inr ⟨call, List.mem_reverse.mp hcall, by rw [LoggedTransaction.isOpen, hstate], rfl⟩
  | closed ended rolledBack =>
    rw [hstate] at h
    rcases List.mem_cons.mp h with rfl | h
    · exact .inl ⟨rfl, rfl⟩
    · rcases List.mem_append.mp h with h | h
      · obtain ⟨call, hcall, rfl⟩ := List.mem_map.mp h
        exact .inr ⟨call, List.mem_reverse.mp hcall, by rw [LoggedTransaction.isOpen, hstate], rfl⟩
      · obtain rfl := List.mem_singleton.mp h
        refine .inl ⟨?_, rfl⟩
        cases rolledBack with
        | true => rfl
        | false => rfl

theorem survives_of_mem_records {size : Nat} {t : LoggedTransaction} (h : Sane size t) {r : Record}
    (hr : r ∈ t.records) : r.Survives := by
  rcases tag_of_mem_records hr with ⟨hboundary, hparams⟩ | ⟨call, hcall, -, rfl⟩
  · refine ⟨?_, by rw [hparams]; rfl⟩
    intro hcollides
    unfold Tag.Collides at hcollides
    split at hcollides
    · rename_i sql htag
      rw [htag] at hboundary
      cases hboundary
    · exact hcollides
  · exact ⟨fun h => h, h.canonical call hcall⟩

/-! The entries of the statement table. -/

variable {c : Conversion}

theorem map_id_entries : c.entries.map Entry.id = (List.range c.texts.size).map UInt32.ofNat := by
  unfold entries
  rw [List.map_map, ← Array.length_toList, List.range_eq_range', ← List.zipIdx_map_snd 0,
    List.map_map]
  rfl

theorem nodup_ids (h : c.texts.size ≤ UInt32.size) : (c.entries.map Entry.id).Nodup := by
  rw [map_id_entries]
  apply List.Nodup.map_on ?_ List.nodup_range
  intro a ha b hb hab
  have ha' := UInt32.toNat_ofNat_of_lt' (Nat.lt_of_lt_of_le (List.mem_range.mp ha) h)
  have hb' := UInt32.toNat_ofNat_of_lt' (Nat.lt_of_lt_of_le (List.mem_range.mp hb) h)
  rw [← ha', ← hb', hab]

theorem mem_entries {id : UInt32} {sql : String} (h : c.texts[id.toNat]? = some sql) :
    ⟨id, sql⟩ ∈ c.entries := by
  unfold entries
  apply List.mem_map.mpr
  refine ⟨(sql, id.toNat), ?_, by simp⟩
  rw [List.mk_mem_zipIdx_iff_getElem?, Array.getElem?_toList]
  exact h

theorem resolve_loadedTable (hsize : c.texts.size ≤ UInt32.size) {id : UInt32} {sql : String}
    (h : c.texts[id.toNat]? = some sql) : c.loadedTable.resolve (.interned id) = some sql := by
  have hnodup : (c.loadedTable.interned.map Prod.fst).Nodup := by
    rw [loadedTable, List.map_reverse, List.nodup_reverse, List.map_map]
    exact nodup_ids hsize
  rw [StatementTable.resolve, interned?_eq_some_iff hnodup, loadedTable, List.mem_reverse]
  exact List.mem_map.mpr ⟨_, mem_entries h, rfl⟩

/-! What is loaded is what the log means. -/

theorem isLoadedAs_call (hsize : c.texts.size ≤ UInt32.size) {call : LoggedCall}
    (h : call.id.toNat < c.texts.size) :
    (sqlCall c.texts call).IsLoadedAs c.loadedTable (loadedCall call) := by
  refine ⟨.interned call.id, ?_, rfl⟩
  apply resolve_loadedTable hsize
  simp [sqlCall, h]

theorem isLoadedAs_calls (hsize : c.texts.size ≤ UInt32.size) {calls : List LoggedCall}
    (h : ∀ call ∈ calls, call.id.toNat < c.texts.size) :
    List.Forall₂ (SqlCall.IsLoadedAs c.loadedTable) (calls.map (sqlCall c.texts))
      (calls.map loadedCall) := by
  induction calls with
  | nil => exact .nil
  | cons call calls ih =>
    exact .cons (isLoadedAs_call hsize (h call List.mem_cons_self))
      (ih fun call hcall => h call (List.mem_cons_of_mem _ hcall))

theorem isLoadedAs_transactions (hsize : c.texts.size ≤ UInt32.size)
    {ts : List LoggedTransaction} (h : ∀ t ∈ ts, Sane c.texts.size t) :
    List.Forall₂ (SessionTransaction.IsLoadedAs c.loadedTable)
      (ts.filterMap (finish? c.texts [])) (ts.filterMap loaded?) := by
  induction ts with
  | nil => exact .nil
  | cons t ts ih =>
    have hts := ih fun t ht => h t (List.mem_cons_of_mem _ ht)
    have hsane := h t List.mem_cons_self
    cases hstate : t.state with
    | opened =>
      rw [List.filterMap_cons_none (finish?_of_opened _ hstate)]
      rw [List.filterMap_cons_none (loaded?_of_opened hstate)]
      exact hts
    | implicit =>
      obtain ⟨call, hcalls⟩ := hsane.single hstate
      rw [List.filterMap_cons_some (finish?_of_implicit _ hstate hcalls)]
      rw [List.filterMap_cons_some (loaded?_of_implicit hstate hcalls)]
      refine .cons (.implicit (isLoadedAs_call hsize (hsane.resolved call ?_))) hts
      rw [hcalls]
      exact List.mem_cons_self
    | closed ended rolledBack =>
      rw [List.filterMap_cons_some (finish?_of_closed _ hstate)]
      rw [List.filterMap_cons_some (loaded?_of_closed hstate)]
      refine .cons (.explicit (isLoadedAs_calls hsize ?_)) hts
      intro call hcall
      exact hsane.resolved call (List.mem_reverse.mp hcall)

/-- A call of a transaction that is not left out is a call of a transaction of the log. -/
theorem exists_finished_of_call {size : Nat} {texts : Array String} {t : LoggedTransaction}
    (h : Sane size t) (hclosed : t.isOpen = false) {call : LoggedCall} (hcall : call ∈ t.calls) :
    ∃ s, finish? texts [] t = some s ∧ sqlCall texts call ∈ s.calls := by
  cases hstate : t.state with
  | opened =>
    rw [LoggedTransaction.isOpen, hstate] at hclosed
    cases hclosed
  | implicit =>
    obtain ⟨d, hcalls⟩ := h.single hstate
    refine ⟨_, finish?_of_implicit texts hstate hcalls, ?_⟩
    rw [hcalls, List.mem_singleton] at hcall
    rw [hcall]
    exact List.mem_singleton.mpr rfl
  | closed ended rolledBack =>
    refine ⟨_, finish?_of_closed texts hstate, ?_⟩
    exact List.mem_map_of_mem (List.mem_reverse.mpr hcall)

/-! From the log to the queue. -/

theorem ofLog_eq_ok {log : List UInt8} (h : ofLog log = .ok c) :
    ofRows (Log.rows log).1 = .ok c := by
  unfold ofLog at h
  dsimp only at h
  obtain ⟨d, hrows, h⟩ := bind_eq_ok_iff.mp h
  rw [hrows]
  split at h
  · cases h
  · cases h
    rfl

theorem gathers_of_ofLog {log : List UInt8} (h : ofLog log = .ok c) :
    Gathers [] #[] (events log) c.transactions c.texts :=
  gathers_of_rows Clock.faithful_new (ofLog_eq_ok h)

theorem survives_of_mem_events {log : List UInt8} : ∀ e ∈ events log, Survives e := by
  intro e he
  obtain ⟨row, -, hrow⟩ := List.mem_filterMap.mp he
  exact survives_of_eventOfRow? hrow

theorem consistent_of_ofLog {log : List UInt8} (h : ofLog log = .ok c) :
    Consistent ((events log).reverse ++ []) c.transactions c.texts :=
  consistent_run (gathers_of_ofLog h) survives_of_mem_events consistent_nil

theorem sessionTransactions_of_ofLog {log : List UInt8} (h : ofLog log = .ok c)
    (hsize : c.texts.size ≤ UInt32.size) :
    sessionTransactions log = c.transactions.reverse.filterMap (finish? c.texts []) := by
  have hrun := finished_run (gathers_of_ofLog h) survives_of_mem_events consistent_nil hsize
  rw [← hrun]
  rfl

/-- There are no more texts than the log has different ones. -/
theorem size_texts_le {log : List UInt8} (h : ofLog log = .ok c) :
    c.texts.size ≤ (statementTexts log).dedup.length := by
  have hc := consistent_of_ofLog h
  rw [← Array.length_toList]
  apply List.Subperm.length_le
  apply List.subperm_of_subset hc.nodup
  intro sql hsql
  have hmem := hc.mem sql hsql
  rw [List.append_nil, List.filterMap_reverse, List.mem_reverse] at hmem
  exact List.mem_dedup.mpr hmem

theorem exists_of_mem_records {r : Record} (h : r ∈ c.records) :
    ∃ t ∈ c.transactions, r ∈ t.records := by
  obtain ⟨t, ht, hr⟩ := List.mem_flatMap.mp h
  exact ⟨t, List.mem_reverse.mp ht, hr⟩

theorem layout_trace {log : List UInt8} (h : ofLog log = .ok c) :
    Layout c.records c.entries c.trace := by
  have hc := consistent_of_ofLog h
  unfold trace
  rw [List.append_assoc]
  refine .table (lines_encode ?_) (lines_encode_entries _)
  intro r hr
  obtain ⟨t, ht, hr⟩ := exists_of_mem_records hr
  exact survives_of_mem_records (hc.sane t ht) hr

theorem text?_of_mem_records {r : Record} (h : r ∈ c.records) : r.text? = none := by
  obtain ⟨t, -, hr⟩ := exists_of_mem_records h
  rcases tag_of_mem_records hr with ⟨hboundary, -⟩ | ⟨call, -, -, rfl⟩
  · have hnil := inlineTexts_singleton_of_isBoundary hboundary
    rw [inlineTexts_cons, List.append_eq_nil_iff, Option.toList_eq_nil_iff] at hnil
    exact hnil.1
  · rfl

theorem inlineTexts_records : inlineTexts c.records = [] :=
  List.filterMap_eq_nil_iff.mpr fun _ hr => text?_of_mem_records hr

theorem exists_call_of_mem_references {id : UInt32} (h : id ∈ references c.records) :
    ∃ t ∈ c.transactions, ∃ call ∈ t.calls, t.isOpen = false ∧ call.id = id := by
  obtain ⟨r, hr, hreference⟩ := List.mem_filterMap.mp h
  obtain ⟨t, ht, hr⟩ := exists_of_mem_records hr
  rcases tag_of_mem_records hr with ⟨hboundary, -⟩ | ⟨call, hcall, hclosed, rfl⟩
  · unfold Record.reference? at hreference
    split at hreference
    · rename_i n htag
      rw [htag] at hboundary
      cases hboundary
    · cases hreference
  · cases hreference
    exact ⟨t, ht, call, hcall, hclosed, rfl⟩

theorem exists_call_of_finished {size : Nat} {texts : Array String} {t : LoggedTransaction}
    {s : SessionTransaction} (h : Sane size t) (hs : finish? texts [] t = some s) {c : SqlCall}
    (hc : c ∈ s.calls) :
    ∃ call ∈ t.calls, LoggedTransaction.callRecord call ∈ t.records ∧ c = sqlCall texts call := by
  cases hstate : t.state with
  | opened =>
    rw [finish?_of_opened texts hstate] at hs
    cases hs
  | implicit =>
    obtain ⟨call, hcalls⟩ := h.single hstate
    rw [finish?_of_implicit texts hstate hcalls] at hs
    cases hs
    refine ⟨call, ?_, ?_, List.mem_singleton.mp hc⟩
    · rw [hcalls]
      exact List.mem_singleton.mpr rfl
    · simp [LoggedTransaction.records, hstate, hcalls]
  | closed ended rolledBack =>
    rw [finish?_of_closed texts hstate] at hs
    cases hs
    obtain ⟨call, hcall, rfl⟩ := List.mem_map.mp hc
    refine ⟨call, List.mem_reverse.mp hcall, ?_, rfl⟩
    rw [LoggedTransaction.records, hstate]
    exact List.mem_cons_of_mem _ (List.mem_append_left _ (List.mem_map_of_mem hcall))

/-- The ids that the records refer to are those of the texts of the transactions of the log. -/
theorem exists_sql_iff {log : List UInt8} (h : ofLog log = .ok c)
    (hsize : c.texts.size ≤ UInt32.size) {sql : String} :
    (∃ t ∈ sessionTransactions log, ∃ call ∈ t.calls, call.sql = sql) ↔
      ∃ id ∈ references c.records, c.texts[id.toNat]? = some sql := by
  have hc := consistent_of_ofLog h
  rw [sessionTransactions_of_ofLog h hsize]
  constructor
  · rintro ⟨s, hs, d, hd, rfl⟩
    obtain ⟨t, ht, hfinish⟩ := List.mem_filterMap.mp hs
    have hsane := hc.sane t (List.mem_reverse.mp ht)
    obtain ⟨call, hcall, hrecord, rfl⟩ := exists_call_of_finished hsane hfinish hd
    refine ⟨call.id, ?_, ?_⟩
    · exact List.mem_filterMap.mpr ⟨_, List.mem_flatMap.mpr ⟨t, ht, hrecord⟩, rfl⟩
    · simp [sqlCall, hsane.resolved call hcall]
  · rintro ⟨id, hid, hsql⟩
    obtain ⟨t, ht, call, hcall, hclosed, rfl⟩ := exists_call_of_mem_references hid
    obtain ⟨s, hs, hmem⟩ := exists_finished_of_call (hc.sane t ht) hclosed hcall
    refine ⟨s, List.mem_filterMap.mpr ⟨t, List.mem_reverse.mpr ht, hs⟩, _, hmem, ?_⟩
    rw [sqlCall, hsql]
    rfl

theorem hasText_loadedTable (hsize : c.texts.size ≤ UInt32.size) {id : UInt32} {sql : String}
    (h : c.texts[id.toNat]? = some sql) : hasText c.loadedTable id = !Text.blank sql := by
  have hresolve : c.loadedTable.interned? id = some sql := resolve_loadedTable hsize h
  rw [hasText, hresolve]

theorem unresolved?_loadedTable_eq_none_iff {log : List UInt8} (h : ofLog log = .ok c)
    (hsize : c.texts.size ≤ UInt32.size) :
    unresolved? c.loadedTable (references c.records).reverse = none ↔
      ∀ t ∈ sessionTransactions log, ∀ call ∈ t.calls, Text.blank call.sql = false := by
  rw [unresolved?_eq_none_iff]
  constructor
  · intro hall t ht call hcall
    obtain ⟨id, hid, hsql⟩ := (exists_sql_iff h hsize).mp ⟨t, ht, call, hcall, rfl⟩
    have hid' := hall id (List.mem_reverse.mpr hid)
    rw [hasText_loadedTable hsize hsql] at hid'
    simpa using hid'
  · intro hblank id hid
    rw [List.mem_reverse] at hid
    obtain ⟨t, ht, call, hcall, -, rfl⟩ := exists_call_of_mem_references hid
    have hlt := ((consistent_of_ofLog h).sane t ht).resolved call hcall
    have hsql := Array.getElem?_eq_getElem hlt
    obtain ⟨s, hs, d, hd, hdsql⟩ := (exists_sql_iff h hsize).mpr ⟨call.id, hid, hsql⟩
    rw [hasText_loadedTable hsize hsql, ← hdsql, hblank s hs d hd]
    rfl

/-- The trace of a log is loaded, unless an id that a record refers to has a blank text. -/
theorem load_trace_eq {log : List UInt8} (h : ofLog log = .ok c)
    (hsize : c.texts.size ≤ UInt32.size) {s : Source} (hs : s.Reliable) (hbytes : s.bytes = c.trace)
    (capacity : Nat) :
    load s capacity =
      (unresolved? c.loadedTable (references c.records).reverse).elim (.ok c.loaded)
        fun id => .error (.unresolvedStatement id) := by
  have hc := consistent_of_ofLog h
  have hparses : Parses 0 c.records (c.transactions.reverse.filterMap loaded?) :=
    parses_records fun t ht => hc.sane t (List.mem_reverse.mp ht)
  obtain ⟨u, hruns, hopened, htransactions⟩ :=
    Loading.exists_runs_of_parses hparses (s := .initial) rfl rfl
  have hstatements : u.statements = .empty := by
    rw [hruns.statements, inlineTexts_records]
    rfl
  have hinserts : Inserts u.statements c.entries c.loadedTable := by
    rw [hstatements, inserts_iff]
    refine ⟨nodup_ids hsize, by simp [StatementTable.empty], ?_⟩
    rw [loadedTable, StatementTable.empty, List.append_nil]
  have hblank : ∀ r ∈ c.records, r.isBlank = false := by
    intro r hr
    apply isBlank_eq_false_iff.mpr
    intro sql htag
    have hnone := text?_of_mem_records hr
    rw [Record.text?, htag] at hnone
    cases hnone
  have hreferenced : u.referenced = (references c.records).reverse := by
    rw [hruns.referenced]
    exact List.append_nil _
  have hloaded : ⟨u.transactions.reverse, c.loadedTable⟩ = c.loaded := by
    rw [htransactions, List.reverse_append, List.reverse_reverse]
    rfl
  rw [load_of_runs hs capacity (hbytes ▸ layout_trace h) hblank hruns hopened hinserts,
    hreferenced, hloaded]

theorem load_trace {log : List UInt8} (h : ofLog log = .ok c)
    (htexts : (statementTexts log).dedup.length < UInt32.size)
    (hblank : ∀ t ∈ sessionTransactions log, ∀ call ∈ t.calls, Text.blank call.sql = false) :
    (∀ s : Source, s.Reliable → s.bytes = c.trace → ∀ capacity, load s capacity = .ok c.loaded) ∧
      List.Forall₂ (SessionTransaction.IsLoadedAs c.loaded.statements) (sessionTransactions log)
        c.loaded.transactions := by
  have hsize : c.texts.size ≤ UInt32.size :=
    Nat.le_trans (size_texts_le h) (Nat.le_of_lt htexts)
  constructor
  · intro s hs hbytes capacity
    rw [load_trace_eq h hsize hs hbytes,
      (unresolved?_loadedTable_eq_none_iff h hsize).mpr hblank, Option.elim_none]
  · rw [sessionTransactions_of_ofLog h hsize]
    apply isLoadedAs_transactions hsize
    intro t ht
    exact (consistent_of_ofLog h).sane t (List.mem_reverse.mp ht)

end WorkloadReplay.Conversion
