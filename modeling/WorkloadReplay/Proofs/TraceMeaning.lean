import WorkloadReplay.Proofs.SectionReading
import Mathlib.Data.List.Nodup

/-!
# The meaning of a trace

A trace is loaded exactly if it is of the format: lines of records, which are those of some
transactions, then nothing, the section delimiter, or its line and lines of entries, in which every
id that a record refers to has a text. What is loaded is then what the lines say.
-/

namespace WorkloadReplay.Trace

/-- The layout of a trace with these records and these entries. -/
inductive Layout : List Record → List Entry → List UInt8 → Prop where
  | records {records : List Record} {b : List UInt8} (h : Lines Record.scan records b) :
      Layout records [] b
  | delimiter {records : List Record} {b : List UInt8} (h : Lines Record.scan records b) :
      Layout records [] (b ++ [sectionDelimiter])
  | table {records : List Record} {entries : List Entry} {b c : List UInt8}
      (h : Lines Record.scan records b) (h' : Lines Entry.scan entries c) :
      Layout records entries (b ++ (delimiterLine ++ c))

/-- What records and entries have to fulfil, and what they mean. -/
structure Means (records : List Record) (entries : List Entry) (q : Queue) : Prop where
  parses : Parses 0 records q.transactions
  notBlank : ∀ record ∈ records, ∀ sql, record.tag = .inline sql → Text.blank sql = false
  distinct : (entries.map Entry.id).Nodup
  resolved : ∀ id ∈ references records, ∃ e ∈ entries, e.id = id ∧ Text.blank e.sql = false
  inline : q.statements.inline = (inlineTexts records).toArray
  resolveInline : ∀ key,
    q.statements.resolve (.inline key) = (inlineTexts records)[key.toNat]?
  interned : q.statements.interned = (entries.map Entry.binding).reverse

private theorem conclude_eq_ok_iff {s : Loading} {statements : StatementTable} {q : Queue} :
    (match unresolved? statements s.referenced with
      | some id => throw (.unresolvedStatement id)
      | none => pure ⟨s.transactions.reverse, statements⟩ : Except Fault Queue) = .ok q ↔
      unresolved? statements s.referenced = none ∧ ⟨s.transactions.reverse, statements⟩ = q := by
  cases unresolved? statements s.referenced with
  | none => simp [pure, Except.pure]
  | some id => simp [throw, throwThe, MonadExceptOf.throw]

theorem load_eq_ok_iff_parts {source : Source} {capacity : Nat} {q : Queue} :
    load source capacity = .ok q ↔
      ∃ r s r' delimited statements,
        loadRecords (.ofSource source capacity) .initial = (r, .ok s) ∧
        s.opened = none ∧ r.skipSectionDelimiter = (r', .ok delimited) ∧
        (if delimited then loadEntries r' s.statements else .ok s.statements) = .ok statements ∧
        unresolved? statements s.referenced = none ∧
        ⟨s.transactions.reverse, statements⟩ = q := by
  unfold load
  generalize loadRecords (.ofSource source capacity) .initial = x
  obtain ⟨r, answer⟩ := x
  simp only [bind_eq_ok_iff]
  constructor
  · rintro ⟨s, rfl, h⟩
    split at h
    · cases h
    · rename_i hopened
      obtain ⟨delimited, hskip, h⟩ := bind_eq_ok_iff.mp h
      have hs : ∃ statements,
          (if delimited then loadEntries r.skipSectionDelimiter.1 s.statements
            else .ok s.statements) = .ok statements ∧
          unresolved? statements s.referenced = none ∧
          ⟨s.transactions.reverse, statements⟩ = q := by
        cases delimited with
        | false =>
          obtain ⟨statements, hstatements, h⟩ := bind_eq_ok_iff.mp h
          exact ⟨statements, hstatements, conclude_eq_ok_iff.mp h⟩
        | true =>
          obtain ⟨statements, hstatements, h⟩ := bind_eq_ok_iff.mp h
          exact ⟨statements, hstatements, conclude_eq_ok_iff.mp h⟩
      obtain ⟨statements, hstatements⟩ := hs
      exact ⟨r, s, _, delimited, statements, rfl, by simpa using hopened, Prod.ext rfl hskip,
        hstatements⟩
  · rintro ⟨r, s, r', delimited, statements, hrecords, hopened, hskip, hstatements, hconclude⟩
    obtain ⟨rfl, rfl⟩ := Prod.mk.inj hrecords
    refine ⟨s, rfl, ?_⟩
    rw [hopened, hskip, if_neg (by simp)]
    refine bind_eq_ok_iff.mpr ⟨delimited, rfl, ?_⟩
    cases delimited with
    | false => exact bind_eq_ok_iff.mpr ⟨statements, hstatements, conclude_eq_ok_iff.mpr hconclude⟩
    | true => exact bind_eq_ok_iff.mpr ⟨statements, hstatements, conclude_eq_ok_iff.mpr hconclude⟩

theorem load_of_parts {source : Source} {capacity : Nat} {r r' : Reader} {s : Loading}
    {delimited : Bool} {statements : StatementTable}
    (hrecords : loadRecords (.ofSource source capacity) .initial = (r, .ok s))
    (hopened : s.opened = none) (hskip : r.skipSectionDelimiter = (r', .ok delimited))
    (hentries :
      (if delimited then loadEntries r' s.statements else .ok s.statements) = .ok statements) :
    load source capacity =
      (unresolved? statements s.referenced).elim (.ok ⟨s.transactions.reverse, statements⟩)
        fun id => .error (.unresolvedStatement id) := by
  cases hresolved : unresolved? statements s.referenced with
  | none =>
    apply load_eq_ok_iff_parts.mpr
    exact ⟨r, s, r', delimited, statements, hrecords, hopened, hskip, hentries, hresolved, rfl⟩
  | some id =>
    cases delimited with
    | false =>
      obtain rfl : s.statements = statements := Except.ok.inj hentries
      simp [load, hrecords, hopened, hskip, hresolved, bind, Except.bind, pure, Except.pure, throw,
        throwThe, MonadExceptOf.throw]
    | true =>
      rw [if_pos rfl] at hentries
      simp [load, hrecords, hopened, hskip, hentries, hresolved, bind, Except.bind, throw, throwThe,
        MonadExceptOf.throw]

theorem isBlank_eq_false_iff {record : Record} :
    record.isBlank = false ↔ ∀ sql, record.tag = .inline sql → Text.blank sql = false := by
  unfold Record.isBlank
  cases htag : record.tag with
  | inline sql => simp
  | begin => simp
  | commit => simp
  | rollback => simp
  | id id => simp

theorem unresolved?_eq_none_iff {t : StatementTable} {ids : List UInt32} :
    unresolved? t ids = none ↔ ∀ id ∈ ids, hasText t id = true := by
  simp [unresolved?, List.min?_eq_none_iff, List.filter_eq_nil_iff]

theorem interned?_eq_some_iff {t : StatementTable} (h : (t.interned.map Prod.fst).Nodup)
    {id : UInt32} {sql : String} : t.interned? id = some sql ↔ (id, sql) ∈ t.interned := by
  unfold StatementTable.interned?
  rw [List.lookup_eq_some_iff]
  constructor
  · rintro ⟨l, l', hl, -⟩
    rw [hl]
    simp
  · intro hmem
    obtain ⟨l, l', hl⟩ := List.append_of_mem hmem
    refine ⟨l, l', hl, ?_⟩
    intro p hp
    rw [hl, List.map_append, List.nodup_append] at h
    have hne : p.1 ≠ id := h.2.2 p.1 (List.mem_map_of_mem hp) id (by simp)
    simpa using hne.symm

theorem hasText_iff {t : StatementTable} {entries : List Entry} {id : UInt32}
    (hdistinct : (entries.map Entry.id).Nodup)
    (ht : t.interned = (entries.map Entry.binding).reverse) :
    hasText t id = true ↔ ∃ e ∈ entries, e.id = id ∧ Text.blank e.sql = false := by
  have hnodup : (t.interned.map Prod.fst).Nodup := by
    rw [ht, List.map_reverse, List.nodup_reverse, List.map_map]
    exact hdistinct
  have hmem (sql : String) : t.interned? id = some sql ↔ ∃ e ∈ entries, e.binding = (id, sql) := by
    rw [interned?_eq_some_iff hnodup, ht, List.mem_reverse, List.mem_map]
  unfold hasText
  constructor
  · intro h
    split at h
    · rename_i sql hsql
      obtain ⟨e, he, hbinding⟩ := (hmem sql).mp hsql
      cases hbinding
      exact ⟨e, he, rfl, by simpa using h⟩
    · cases h
  · rintro ⟨e, he, rfl, hblank⟩
    rw [(hmem e.sql).mpr ⟨e, he, rfl⟩]
    simp [hblank]

theorem statements_of_runs {u : Loading} {records : List Record}
    (h : Loading.Runs .initial records u) :
    u.statements = ⟨[], (inlineTexts records).toArray⟩ := by
  rw [h.statements]
  simp [Loading.initial, StatementTable.empty]

private theorem mem_referenced_of_runs {u : Loading} {records : List Record}
    (h : Loading.Runs .initial records u) {id : UInt32} :
    id ∈ u.referenced ↔ id ∈ references records := by
  rw [h.referenced]
  simp [Loading.initial]

/-- Records and entries can be gathered exactly if they are those of some transactions. -/
theorem means_iff {records : List Record} {entries : List Entry} {q : Queue} :
    Means records entries q ↔
      (∀ record ∈ records, record.isBlank = false) ∧
      ∃ u statements, Loading.Runs .initial records u ∧ u.opened = none ∧
        Inserts u.statements entries statements ∧
        unresolved? statements u.referenced = none ∧
        ⟨u.transactions.reverse, statements⟩ = q := by
  constructor
  · intro h
    refine ⟨fun record hr => isBlank_eq_false_iff.mpr (h.notBlank record hr), ?_⟩
    obtain ⟨u, hruns, hopened, htransactions⟩ := Loading.exists_runs_of_parses h.parses
      (s := .initial) rfl rfl
    refine ⟨u, q.statements, hruns, hopened, ?_, ?_, ?_⟩
    · rw [inserts_iff, statements_of_runs hruns, List.append_nil, ← h.interned, ← h.inline]
      exact ⟨h.distinct, fun _ _ => List.not_mem_nil, rfl⟩
    · rw [unresolved?_eq_none_iff]
      intro id hid
      rw [hasText_iff h.distinct h.interned]
      exact h.resolved id ((mem_referenced_of_runs hruns).mp hid)
    · rw [htransactions, List.reverse_append, List.reverse_reverse]
      rfl
  · rintro ⟨hblank, u, statements, hruns, hopened, hinserts, hresolved, rfl⟩
    obtain ⟨ts, hparses, htransactions⟩ := (Loading.completes_of_runs hruns hopened).1 rfl
    obtain ⟨hdistinct, -, hstatements⟩ := inserts_iff.mp hinserts
    rw [statements_of_runs hruns, List.append_nil] at hstatements
    have hts : u.transactions.reverse = ts := by
      rw [htransactions, List.reverse_append, List.reverse_reverse]
      rfl
    refine ⟨?_, ?_, hdistinct, ?_, ?_, ?_, ?_⟩
    · rw [hts]
      exact hparses
    · exact fun record hr => isBlank_eq_false_iff.mp (hblank record hr)
    · intro id hid
      rw [unresolved?_eq_none_iff] at hresolved
      rw [← hasText_iff (t := statements) hdistinct (by rw [hstatements])]
      exact hresolved id ((mem_referenced_of_runs hruns).mpr hid)
    · rw [hstatements]
    · intro key
      rw [hstatements, StatementTable.resolve, List.getElem?_toArray]
    · rw [hstatements]

theorem entries_eq_nil {entries : List Entry} (h : Lines Entry.scan entries []) :
    entries = [] := by
  generalize hb : ([] : List UInt8) = b at h
  cases h with
  | nil => rfl
  | cons hline =>
    obtain ⟨rfl, -⟩ := List.append_eq_nil_iff.mp hb.symm
    exact absurd (Entry.scan_length hline) (Nat.lt_irrefl 0)

theorem layout_iff {records : List Record} {entries : List Entry} {b : List UInt8} :
    Layout records entries b ↔
      ∃ c rest delimited d, b = c ++ rest ∧ Lines Record.scan records c ∧ AtEnd rest ∧
        Whole.skipDelimiter rest = (.ok delimited, d) ∧
        if delimited then Lines Entry.scan entries d else entries = [] := by
  constructor
  · intro h
    cases h with
    | records h =>
      exact ⟨b, [], false, [], (List.append_nil b).symm, h, .inl rfl, rfl, rfl⟩
    | @delimiter c h =>
      exact ⟨c, [sectionDelimiter], true, [], rfl, h, .inr rfl, rfl, .nil⟩
    | @table _ c d h h' =>
      exact ⟨c, delimiterLine ++ d, true, d, rfl, h, .inr rfl,
        Whole.skipDelimiter_eq_true_iff.mpr (.inr rfl), h'⟩
  · rintro ⟨c, rest, delimited, d, rfl, h, hend, hskip, hentries⟩
    cases delimited with
    | false =>
      obtain ⟨hhead, rfl⟩ := Whole.skipDelimiter_eq_false_iff.mp hskip
      obtain rfl : entries = [] := hentries
      obtain rfl : rest = [] := hend.resolve_right hhead
      rw [List.append_nil]
      exact .records h
    | true =>
      rcases Whole.skipDelimiter_eq_true_iff.mp hskip with ⟨rfl, rfl⟩ | rfl
      · obtain rfl := entries_eq_nil hentries
        exact .delimiter h
      · exact .table h hentries

theorem exists_layout_of_load {s : Source} (hs : s.Reliable) {capacity : Nat} {q : Queue}
    (h : load s capacity = .ok q) :
    ∃ records entries, Layout records entries s.bytes ∧ Means records entries q := by
  obtain ⟨r, u, r', delimited, statements, hrecords, hopened, hskip, hentries, hrest⟩ :=
    load_eq_ok_iff_parts.mp h
  obtain ⟨records, c, rest, hbytes, hlines, hend, hgives, hblank, hruns⟩ :=
    exists_lines_of_loadRecords (Reader.gives_ofSource hs capacity) hrecords
  have hf := hgives.skipSectionDelimiter
  rw [hskip] at hf
  obtain ⟨d, hwhole, hgives'⟩ := hgives.of_ok hf
  cases delimited with
  | false =>
    cases hentries
    refine ⟨records, [], ?_, ?_⟩
    · exact layout_iff.mpr ⟨c, rest, false, d, hbytes, hlines, hend, hwhole, rfl⟩
    · exact means_iff.mpr ⟨hblank, u, u.statements, hruns, hopened, .nil _, hrest⟩
  | true =>
    obtain ⟨entries, hlines', hinserts⟩ := exists_lines_of_loadEntries hgives' hentries
    refine ⟨records, entries, ?_, ?_⟩
    · exact layout_iff.mpr ⟨c, rest, true, d, hbytes, hlines, hend, hwhole, hlines'⟩
    · exact means_iff.mpr ⟨hblank, u, statements, hruns, hopened, hinserts, hrest⟩

/-- Lines that can be gathered are loaded, unless an id that they refer to has no text. -/
theorem load_of_runs {s : Source} (hs : s.Reliable) (capacity : Nat) {records : List Record}
    {entries : List Entry} {u : Loading} {statements : StatementTable}
    (hlayout : Layout records entries s.bytes)
    (hblank : ∀ record ∈ records, record.isBlank = false)
    (hruns : Loading.Runs .initial records u) (hopened : u.opened = none)
    (hinserts : Inserts u.statements entries statements) :
    load s capacity =
      (unresolved? statements u.referenced).elim (.ok ⟨u.transactions.reverse, statements⟩)
        fun id => .error (.unresolvedStatement id) := by
  obtain ⟨c, rest, delimited, d, hbytes, hlines, hend, hwhole, hentries⟩ :=
    layout_iff.mp hlayout
  have hr := Reader.gives_ofSource hs capacity
  rw [hbytes] at hr
  obtain ⟨r, hload, hgives⟩ := exists_loadRecords_of_lines hlines hend hblank hruns hr
  have hf := hgives.skipSectionDelimiter
  rw [hwhole] at hf
  obtain ⟨r', hskip, hgives'⟩ := hgives.exists_ok hf
  apply load_of_parts hload hopened hskip
  cases delimited with
  | false =>
    obtain rfl : entries = [] := hentries
    cases hinserts with
    | nil => rfl
  | true => exact loadEntries_of_lines hentries hinserts hgives'

theorem load_of_layout {s : Source} (hs : s.Reliable) (capacity : Nat) {q : Queue}
    {records : List Record} {entries : List Entry} (hlayout : Layout records entries s.bytes)
    (hmeans : Means records entries q) : load s capacity = .ok q := by
  obtain ⟨hblank, u, statements, hruns, hopened, hinserts, hresolved, rfl⟩ := means_iff.mp hmeans
  rw [load_of_runs hs capacity hlayout hblank hruns hopened hinserts, hresolved, Option.elim_none]

/-- A trace is loaded exactly if it is of the format, and what is loaded is what it means. -/
theorem load_eq_ok_iff {s : Source} (hs : s.Reliable) (capacity : Nat) (q : Queue) :
    load s capacity = .ok q ↔
      ∃ records entries, Layout records entries s.bytes ∧ Means records entries q := by
  constructor
  · exact exists_layout_of_load hs
  · rintro ⟨records, entries, hlayout, hmeans⟩
    exact load_of_layout hs capacity hlayout hmeans

/-- A transaction that was rolled back, in parts that end inside of a tag and behind the section
delimiter. -/
theorem load_rolled_back :
    load [.bytes (Text.bytes "1f,\"BEGIN\",\"\"\n20,\"7"), .interrupted,
        .bytes (Text.bytes "\",\"\"\n21,\"ROLLBACK\",\"\"\n#"),
        .bytes (Text.bytes "\n7,\"a\"\n")] 1 =
      .ok ⟨[⟨.explicit (some true), 0x1f, [.ofStatement (.interned 7) [] 0x20, .ofEnd 0x21]⟩],
        ⟨[(7, "a")], #[]⟩⟩ := by
  apply (load_eq_ok_iff ?_ 1 _).mpr
  · refine ⟨[⟨0x1f, .begin, []⟩, ⟨0x20, .id 7, []⟩, ⟨0x21, .rollback, []⟩], [⟨7, "a"⟩], ?_, ?_⟩
    · have hparams : Params.decode [] = .ok [] := by rw [Params.decode, Params.decodeFrom]; rfl
      have hbegin : Record.scan (Text.bytes "1f,\"BEGIN\",\"\"\n") =
          .done ⟨0x1f, .begin, []⟩ [] :=
        Record.scan_eq_done_iff.mpr
          ⟨Text.bytes "1f", beginKeyword, [], rfl, rfl, rfl, hparams, by decide⟩
      have hcall : Record.scan (Text.bytes "20,\"7\",\"\"\n") = .done ⟨0x20, .id 7, []⟩ [] :=
        Record.scan_eq_done_iff.mpr
          ⟨Text.bytes "20", Text.bytes "7", [], rfl, rfl, rfl, hparams, by decide⟩
      have hend : Record.scan (Text.bytes "21,\"ROLLBACK\",\"\"\n") =
          .done ⟨0x21, .rollback, []⟩ [] :=
        Record.scan_eq_done_iff.mpr
          ⟨Text.bytes "21", rollbackKeyword, [], rfl, rfl, rfl, hparams, by decide⟩
      have hentry : Entry.scan (Text.bytes "7,\"a\"\n") = .done ⟨7, "a"⟩ [] :=
        Entry.scan_eq_done_iff.mpr ⟨Text.bytes "7", rfl, rfl, by decide⟩
      exact .table (.cons hbegin (.cons hcall (.cons hend .nil))) (.cons hentry .nil)
    · have hcalls : Calls 0 [⟨0x20, .id 7, []⟩] [.ofStatement (.interned 7) [] 0x20] :=
        .cons rfl (.nil _)
      refine ⟨.explicit rfl hcalls rfl (.nil _), ?_, ?_, ?_, rfl, ?_, rfl⟩
      · simp
      · simp
      · intro id hid
        obtain rfl : 7 = id := by simpa [references, Record.reference?] using hid
        exact ⟨⟨7, "a"⟩, List.mem_cons_self, rfl, by decide⟩
      · intro key
        rfl
  · intro reason h
    simp at h

end WorkloadReplay.Trace
