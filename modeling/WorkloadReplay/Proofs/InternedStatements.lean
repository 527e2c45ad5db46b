import WorkloadReplay.Proofs.ConvertedTrace
import WorkloadReplay.Proofs.SameTransactions
import WorkloadReplay.Proofs.TraceContent
import Mathlib.Data.List.Flatten
import Mathlib.Data.List.Perm.Basic

/-!
# The statements of a log and their ids

The statement table of a trace has the text of each statement of the log once, numbered in the order
of their first occurrences, whether the transaction of a statement is written or dropped. Each call
that is written is that of a row of its own, and two calls have one id exactly if their rows have
one text.
-/

namespace WorkloadReplay

namespace Log

/-- The text of the statement that a row tells of, unless it is a boundary of a transaction. -/
def statementText? (row : Row) : Option String :=
  (sqlOfMessage? row.message).filter fun sql => classify sql = .statement

section

variable {row : Row}

theorem exists_of_eventOfRow {event : Option Event} (h : eventOfRow row = .ok event) :
    (sqlOfMessage? row.message = none ∧ event = none) ∨
      ∃ sql time kind, sqlOfMessage? row.message = some sql ∧
        (Clock.new.parse row.logTime).2 = .ok time ∧ kindOfSql row sql = .ok kind ∧
        event = some ⟨row.vxid, time, kind⟩ := by
  unfold eventOfRow at h
  split at h
  · rename_i hsql
    cases h
    exact .inl ⟨hsql, rfl⟩
  rename_i sql hsql
  split at h
  · cases h
  rename_i time htime
  rw [← toOption_eq_some_iff, toOption_map, Option.map_eq_some_iff] at h
  obtain ⟨kind, hkind, rfl⟩ := h
  exact .inr ⟨sql, time, kind, hsql, htime, toOption_eq_some_iff.mp hkind, rfl⟩

theorem exists_of_kindOfSql {sql : String} {kind : EventKind} (h : kindOfSql row sql = .ok kind) :
    (classify sql = .statement ∧
        ∃ params, paramsOfDetail row.detail row.line = .ok params ∧ kind = .statement sql params) ∨
      (classify sql ≠ .statement ∧ ∀ sql' params, kind ≠ .statement sql' params) := by
  unfold kindOfSql at h
  split at h
  · rename_i hclass
    cases h
    exact .inr ⟨by simp [hclass], nofun⟩
  · rename_i hclass
    cases h
    exact .inr ⟨by simp [hclass], nofun⟩
  · rename_i hclass
    cases h
    exact .inr ⟨by simp [hclass], nofun⟩
  · rename_i hclass
    rw [← toOption_eq_some_iff, toOption_map, Option.map_eq_some_iff] at h
    obtain ⟨params, hparams, rfl⟩ := h
    exact .inl ⟨hclass, params, toOption_eq_some_iff.mp hparams, rfl⟩

theorem statementText?_of_eventOfRow {event : Option Event} (h : eventOfRow row = .ok event) :
    statementText? row = event.bind Event.sql? := by
  rcases exists_of_eventOfRow h with ⟨hsql, rfl⟩ | ⟨sql, time, kind, hsql, -, hkind, rfl⟩
  · rw [statementText?, hsql]
    rfl
  · rw [statementText?, hsql]
    rcases exists_of_kindOfSql hkind with ⟨hclass, params, -, rfl⟩ | ⟨hclass, hkind⟩
    · simp [Option.filter, hclass, Event.sql?]
    · cases kind with
      | statement sql' params => exact absurd rfl (hkind sql' params)
      | begin => simp [Option.filter, hclass, Event.sql?]
      | close rolledBack => simp [Option.filter, hclass, Event.sql?]

theorem columns_of_statement {e : Event} {sql : String} {params : List Value}
    (h : eventOfRow row = .ok (some e)) (hkind : e.kind = .statement sql params) :
    paramsOfDetail row.detail row.line = .ok params ∧
      (Clock.new.parse row.logTime).2 = .ok e.time := by
  rcases exists_of_eventOfRow h with ⟨-, hnone⟩ | ⟨text, time, kind, -, htime, hrow, he⟩
  · cases hnone
  · cases he
    obtain rfl : kind = .statement sql params := hkind
    rcases exists_of_kindOfSql hrow with ⟨-, found, hfound, hparams⟩ | ⟨-, hne⟩
    · cases hparams
      exact ⟨hfound, htime⟩
    · exact absurd rfl (hne sql params)

end

def Event.call? (texts : List String) (e : Event) : Option LoggedCall :=
  match e.kind with
  | .statement sql params => some ⟨e.time, textId texts sql, params⟩
  | _ => none

end Log

namespace Conversion
open Log Trace
open scoped List

/-! ## Each statement is one call -/

section

variable {e : Event} {es : List Event} {ts ts' : List LoggedTransaction}
  {texts texts' : Array String} {final : List String} {vxid : String}
  {change : LoggedTransaction → LoggedTransaction}

theorem calls_updateFirst (h : ∀ t, (change t).calls = t.calls) :
    (updateFirst vxid change ts).flatMap (·.calls) = ts.flatMap (·.calls) := by
  induction ts with
  | nil => rfl
  | cons t ts ih =>
    rw [updateFirst]
    split
    · rw [List.flatMap_cons, List.flatMap_cons, h]
    · rw [List.flatMap_cons, List.flatMap_cons, ih]

theorem calls_updateFirst_perm {call : LoggedCall} (hopen : hasOpen ts vxid = true)
    (h : ∀ t, (change t).calls = call :: t.calls) :
    (updateFirst vxid change ts).flatMap (·.calls) ~ call :: ts.flatMap (·.calls) := by
  induction ts with
  | nil => cases hopen
  | cons t ts ih =>
    rw [updateFirst]
    split
    · rw [List.flatMap_cons, List.flatMap_cons, h, List.cons_append]
    · rename_i hclosed
      have hopen' : hasOpen ts vxid = true := by
        simpa [hasOpen, hclosed] using hopen
      rw [List.flatMap_cons, List.flatMap_cons]
      exact ((ih hopen').append_left t.calls).trans List.perm_middle

theorem calls_step (h : Applies e ts texts ts' texts') (hextends : texts'.toList <+: final) :
    ts'.flatMap (·.calls) ~ (e.call? final).toList ++ ts.flatMap (·.calls) := by
  cases h with
  | opened hkind => rw [Event.call?, hkind]; rfl
  | closed hkind =>
    rw [Event.call?, hkind, calls_updateFirst]
    · rfl
    · exact fun t => rfl
  | called hkind hopen =>
    rw [Event.call?, hkind]
    dsimp only
    rw [textId_eq_idOf hextends]
    exact calls_updateFirst_perm hopen fun t => rfl
  | alone hkind =>
    rw [Event.call?, hkind]
    dsimp only
    rw [textId_eq_idOf hextends]
    rfl

/-- The calls of all transactions are those of the statements, each once. -/
theorem calls_run (h : Gathers ts texts es ts' texts') (hextends : texts'.toList <+: final) :
    ts'.flatMap (·.calls) ~ es.filterMap (·.call? final) ++ ts.flatMap (·.calls) := by
  induction h with
  | nil => rfl
  | @cons ts ts₁ ts₂ texts texts₁ texts₂ e es h hs ih =>
    have hstep := calls_step h ((prefix_of_gathers hs).trans hextends)
    refine (ih hextends).trans ((hstep.append_left _).trans ?_)
    cases hcall : e.call? final with
    | none => rw [List.filterMap_cons_none hcall]; rfl
    | some call =>
      rw [List.filterMap_cons_some hcall]
      exact List.perm_middle

end

/-! ## The calls that are written -/

def writtenCalls (c : Conversion) : List LoggedCall := c.written.flatMap (·.calls.reverse)

theorem filter_records (c : Conversion) :
    c.records.filter (!·.tag.isBoundary) = c.writtenCalls.map LoggedTransaction.callRecord := by
  have hcalls (calls : List LoggedCall) :
      (calls.map LoggedTransaction.callRecord).filter (!·.tag.isBoundary) =
        calls.map LoggedTransaction.callRecord := by
    apply List.filter_eq_self.mpr
    intro r hr
    obtain ⟨call, -, rfl⟩ := List.mem_map.mp hr
    rfl
  have ht (t : LoggedTransaction) (h : t.isOpen = false) :
      t.records.filter (!·.tag.isBoundary) = t.calls.reverse.map LoggedTransaction.callRecord := by
    unfold LoggedTransaction.records
    cases hstate : t.state with
    | opened => simp [LoggedTransaction.isOpen, hstate] at h
    | implicit => exact hcalls _
    | closed ended rolledBack =>
      dsimp only
      rw [List.filter_cons_of_neg (by simp [Tag.isBoundary]), List.filter_append, hcalls,
        List.filter_cons_of_neg, List.filter_nil, List.append_nil]
      cases rolledBack <;> simp [Tag.isBoundary]
  rw [records_eq_written, recordsOf, List.filter_flatMap, writtenCalls, List.map_flatMap]
  apply List.flatMap_congr
  intro t hwritten
  apply ht
  simpa using (List.mem_filter.mp hwritten).2

theorem writtenCalls_subperm (c : Conversion) :
    c.writtenCalls <+~ c.transactions.flatMap (·.calls) := by
  have hwritten : c.writtenCalls ~ c.written.flatMap (·.calls) :=
    List.Perm.flatMap_left _ fun t _ => t.calls.reverse_perm
  have hsublist : c.written.flatMap (·.calls) <+ c.transactions.reverse.flatMap (·.calls) :=
    List.filter_sublist.flatMap _
  have hall : c.transactions.reverse.flatMap (·.calls) ~ c.transactions.flatMap (·.calls) :=
    c.transactions.reverse_perm.flatMap_right _
  exact (hwritten.subperm.trans hsublist.subperm).trans hall.subperm

theorem exists_origins {α β : Type} {f : α → Option β} {as : List α} {bs : List β}
    (h : bs <+~ as.filterMap f) :
    ∃ origins, origins <+~ as ∧ List.Forall₂ (fun b a => f a = some b) bs origins := by
  have hkept (as : List α) :
      List.Forall₂ (fun b a => f a = some b) (as.filterMap f) (as.filter (f · |>.isSome)) := by
    induction as with
    | nil => exact .nil
    | cons a as ih =>
      cases ha : f a with
      | none => simpa [ha] using ih
      | some b => simpa [ha] using ih
  obtain ⟨found, hperm, hsublist⟩ := h
  obtain ⟨places, hplaces, rfl⟩ := List.sublist_filterMap_iff.mp hsublist
  obtain ⟨origins, horigins, hsame⟩ := List.perm_comp_forall₂ hperm.symm (hkept places)
  exact ⟨origins, hsame.subperm.trans (List.filter_sublist.trans hplaces).subperm, horigins⟩

/-! ## From the rows to the table -/

theorem exists_event_of_mem {c c' : Conversion} {rows : List Row} (hc : c.clock.Faithful)
    (h : rows.foldlM step c = .ok c') : ∀ row ∈ rows, ∃ event, eventOfRow row = .ok event := by
  induction rows generalizing c with
  | nil => exact nofun
  | cons row rows ih =>
    rw [List.foldlM_cons] at h
    obtain ⟨d, hstep, hrows⟩ := bind_eq_ok_iff.mp h
    refine List.forall_mem_cons.mpr ⟨?_, ih (applies_of_step hc hstep).1 hrows⟩
    obtain ⟨clock, -, hstep'⟩ := step_eq hc row
    rw [hstep'] at hstep
    cases hevent : eventOfRow row with
    | error fault =>
      rw [hevent] at hstep
      cases hstep
    | ok event => exact ⟨event, rfl⟩

section

variable {c : Conversion} {log : List UInt8}

/-- In a log that is converted, the texts of the events are those of the rows. -/
theorem differentTexts_eq (h : ofLog log = .ok c) :
    differentTexts log = ((Log.rows log).1.filterMap statementText?).eraseDups := by
  have htexts : statementTexts log = (Log.rows log).1.filterMap statementText? := by
    rw [statementTexts, events, List.filterMap_filterMap]
    apply List.filterMap_congr
    intro row hrow
    obtain ⟨event, hevent⟩ := exists_event_of_mem Clock.faithful_new (ofLog_eq_ok h) row hrow
    rw [statementText?_of_eventOfRow hevent, eventOfRow?, hevent]
    rfl
  rw [← htexts]
  rfl

theorem map_sql_entries (c : Conversion) : c.entries.map Entry.sql = c.texts.toList := by
  rw [entries, List.map_map]
  exact List.zipIdx_map_fst 0 c.texts.toList

/-- The ids are numbered in order. -/
theorem map_toNat_id_entries (hsize : c.texts.size ≤ UInt32.size) :
    c.entries.map (·.id.toNat) = List.range c.texts.size := by
  have hmap : c.entries.map (·.id.toNat) = (c.entries.map Entry.id).map UInt32.toNat := by
    rw [List.map_map]
    rfl
  rw [hmap, map_id_entries, List.map_map]
  conv_rhs => rw [← List.map_id (List.range c.texts.size)]
  apply List.map_congr_left
  intro index hindex
  exact UInt32.toNat_ofNat_of_lt' (Nat.lt_of_lt_of_le (List.mem_range.mp hindex) hsize)

/-- A record is written for a row: it has the time and the parameters of its statement, and an id
whose entry has its text. -/
structure WrittenFor (entries : List Entry) (record : Record) (row : Row) : Prop where
  time : (Clock.new.parse row.logTime).2 = .ok record.time
  params : paramsOfDetail row.detail row.line = .ok record.params
  text : ∃ id sql, record.tag = .id id ∧ statementText? row = some sql ∧ ⟨id, sql⟩ ∈ entries

theorem mem_entries_textId {sql : String} (h : sql ∈ c.texts.toList) :
    ⟨textId c.texts.toList sql, sql⟩ ∈ c.entries := by
  apply names_iff_mem_entries.mp
  refine ⟨c.texts.toList.idxOf sql, ?_, rfl⟩
  rw [← Array.getElem?_toList]
  exact List.getElem?_idxOf h

theorem writtenFor_of_call? {row : Row} {call : LoggedCall}
    (hmem : ∀ sql, statementText? row = some sql → sql ∈ c.texts.toList)
    (h : (eventOfRow? row).bind (·.call? c.texts.toList) = some call) :
    WrittenFor c.entries (LoggedTransaction.callRecord call) row := by
  obtain ⟨e, he, hcall⟩ := Option.bind_eq_some_iff.mp h
  have hrow : eventOfRow row = .ok (some e) := by
    rw [← toOption_eq_some_iff]
    exact Option.join_eq_some_iff.mp he
  unfold Event.call? at hcall
  split at hcall
  · rename_i sql params hkind
    cases hcall
    obtain ⟨hparams, htime⟩ := columns_of_statement hrow hkind
    have htext : statementText? row = some sql := by
      rw [statementText?_of_eventOfRow hrow, Option.bind_some, Event.sql?, hkind]
    exact ⟨htime, hparams, _, sql, rfl, htext, mem_entries_textId (hmem sql htext)⟩
  · cases hcall

/-- The records of statements are written for rows, each for another one. -/
theorem exists_rows_of_records (h : ofLog log = .ok c) :
    ∃ origins, origins <+~ (Log.rows log).1 ∧
      List.Forall₂ (WrittenFor c.entries) (c.records.filter (!·.tag.isBoundary)) origins := by
  have hcalls := calls_run (gathers_of_ofLog h) (List.prefix_refl c.texts.toList)
  have hwritten := c.writtenCalls_subperm.trans hcalls.subperm
  rw [List.flatMap_nil, List.append_nil, events, List.filterMap_filterMap] at hwritten
  obtain ⟨origins, horigins, hfound⟩ := exists_origins hwritten
  refine ⟨origins, horigins, ?_⟩
  rw [filter_records, List.forall₂_map_left_iff]
  obtain ⟨hlength, hzip⟩ := List.forall₂_iff_zip.mp hfound
  refine List.forall₂_iff_zip.mpr ⟨hlength, fun {call row} hmem => ?_⟩
  apply writtenFor_of_call? ?_ (hzip hmem)
  intro sql hsql
  rw [toList_texts h, differentTexts_eq h, List.mem_eraseDups]
  exact List.mem_filterMap.mpr ⟨row, horigins.subset (List.of_mem_zip hmem).2, hsql⟩

/-- Records have one id exactly if their rows have one text. -/
theorem WrittenFor.tag_eq_iff {record record' : Record} {row row' : Row}
    (hids : (c.entries.map Entry.id).Nodup) (hsqls : (c.entries.map Entry.sql).Nodup)
    (h : WrittenFor c.entries record row) (h' : WrittenFor c.entries record' row') :
    record.tag = record'.tag ↔ statementText? row = statementText? row' := by
  obtain ⟨id, sql, htag, htext, hentry⟩ := h.text
  obtain ⟨id', sql', htag', htext', hentry'⟩ := h'.text
  rw [htag, htag', htext, htext', Tag.id.injEq, Option.some.injEq]
  constructor
  · rintro rfl
    exact congrArg Entry.sql (List.inj_on_of_nodup_map hids hentry hentry' rfl)
  · rintro rfl
    exact congrArg Entry.id (List.inj_on_of_nodup_map hsqls hentry hentry' rfl)

variable {fs later : FileSystem} {source dest : String}

theorem summary_of_convert {summary : Summary} (hlog : fs.readExisting source = .ok log)
    (hc : ofLog log = .ok c) (h : convert fs source dest = (later, .ok summary)) :
    summary = c.summary := by
  unfold convert at h
  rw [hlog] at h
  dsimp only at h
  rw [hc] at h
  dsimp only at h
  split at h
  · cases h
  · cases h
    rfl

/-- In the trace of a log with fewer different texts than there are ids, the statement table has the
texts of the statements in the order of their first occurrences, numbered in order, and the records
of statements are written for rows, each for another one, with one id exactly for one text. -/
theorem convert_interns {summary : Summary} (hroot : fs.Rooted)
    (hlog : fs.readExisting source = .ok log)
    (h : convert fs source dest = (later, .ok summary))
    (hsize : ((Log.rows log).1.filterMap statementText?).eraseDups.length < UInt32.size) :
    ∃ trace records entries origins, later.readExisting dest = .ok trace ∧
      Layout records entries trace ∧
      entries.map (·.id.toNat) = List.range summary.interned ∧
      entries.map Entry.sql = ((Log.rows log).1.filterMap statementText?).eraseDups ∧
      (entries.map Entry.sql).Nodup ∧ origins <+~ (Log.rows log).1 ∧
      List.Forall₂ (WrittenFor entries) (records.filter (!·.tag.isBoundary)) origins ∧
      ∀ p ∈ (records.filter (!·.tag.isBoundary)).zip origins,
        ∀ q ∈ (records.filter (!·.tag.isBoundary)).zip origins,
          p.1.tag = q.1.tag ↔ statementText? p.2 = statementText? q.2 := by
  obtain ⟨c, hc, hreplace⟩ := convert_eq_ok hlog h
  obtain rfl := summary_of_convert hlog hc h
  have htexts : c.texts.toList = ((Log.rows log).1.filterMap statementText?).eraseDups := by
    rw [toList_texts hc, differentTexts_eq hc]
  rw [← htexts, Array.length_toList] at hsize
  have hids : (c.entries.map Entry.id).Nodup := nodup_ids (Nat.le_of_lt hsize)
  have hsqls : (c.entries.map Entry.sql).Nodup := by
    rw [map_sql_entries]
    exact (consistent_of_ofLog hc).nodup
  obtain ⟨origins, horigins, hwritten⟩ := exists_rows_of_records hc
  refine ⟨c.trace, c.records, c.entries, origins,
    FileSystem.readExisting_of_replace hroot hreplace, layout_trace hc,
    map_toNat_id_entries (Nat.le_of_lt hsize), ?_, hsqls, horigins, hwritten, ?_⟩
  · rw [map_sql_entries, htexts]
  · intro p hp q hq
    exact (List.forall₂_zip hwritten hp).tag_eq_iff hids hsqls (List.forall₂_zip hwritten hq)

end

/-- A log of two sessions in which two rows have one text without placeholders, and in which one
transaction is dropped. -/
def droppedLog : List UInt8 := Text.bytes
  ("2023-11-12 13:06:58.721 UTC,,,,,,,,,4/7,,,,statement: BEGIN,\n" ++
    "2023-11-12 13:06:58.722 UTC,,,,,,,,,4/7,,,,statement: SELECT 2,\n" ++
    "2023-11-12 13:06:58.723 UTC,,,,,,,,,5/1,,,,execute a: SELECT $1,parameters: $1 = '1'\n" ++
    "2023-11-12 13:06:58.724 UTC,,,,,,,,,5/2,,,,execute b: SELECT $2,parameters: $2 = '7'\n")

def droppedFiles : FileSystem := ((FileSystem.empty 0).write "pg.csv" droppedLog none).1

/-- The text of the dropped transaction has an id, and the calls that are written share another. -/
theorem convert_interns_dropped :
    ∃ trace records entries,
      (convert droppedFiles "pg.csv" "pg.rply").1.readExisting "pg.rply" = .ok trace ∧
      Layout records entries trace ∧ entries.map (·.id.toNat) = [0, 1] ∧
      entries.map Entry.sql = ["SELECT 2", "SELECT ?"] := by
  have hroot : droppedFiles.Rooted := (FileSystem.rooted_empty 0).write _ _ _
  have hlog : droppedFiles.readExisting "pg.csv" = .ok droppedLog := by decide +kernel
  have hconvert : (convert droppedFiles "pg.csv" "pg.rply").2 = .ok ⟨4, 0, 2, 1, 2⟩ := by
    decide +kernel
  have htexts : ((Log.rows droppedLog).1.filterMap statementText?).eraseDups =
      ["SELECT 2", "SELECT ?"] := by decide +kernel
  obtain ⟨trace, records, entries, origins, hread, hlayout, hids, hsqls, -⟩ :=
    convert_interns hroot hlog (Prod.ext rfl hconvert) (by rw [htexts]; decide)
  rw [htexts] at hsqls
  exact ⟨trace, records, entries, hread, hlayout, hids, hsqls⟩

end Conversion

end WorkloadReplay
