import WorkloadReplay.Proofs.LoadedTransactions

/-!
# Truncated traces

A trace that was cut off anywhere is not taken for another one. The cut leaves whole lines, perhaps
with the beginning of one more, which no scan takes for a line. So loading what is left fails, or it
gives the first of the transactions and a part of the texts, each under the key that it had.
-/

namespace WorkloadReplay

/-- A table that is contained in another: with the first of its inline statements, with the entries
that were inserted into it first, and with the same text under every key that it has. -/
structure StatementTable.Within (t u : StatementTable) : Prop where
  inline : t.inline.toList <+: u.inline.toList
  interned : t.interned <:+ u.interned
  resolve : ∀ key sql, t.resolve key = some sql → u.resolve key = some sql

namespace Trace

/-- Bytes that begin the line of an item and do not end it. -/
def Torn {α : Type} (scan : List UInt8 → Scan α) (part : List UInt8) : Prop :=
  part ≠ [] ∧ ∃ more a, more ≠ [] ∧ scan (part ++ more) = .done a []

section

variable {α : Type} {scan : List UInt8 → Scan α}

/-- The beginning of two lists ends in the first or in the second one. -/
private theorem prefix_append_cases {p b c : List α} (h : p <+: b ++ c) :
    p <+: b ∨ ∃ d, p = b ++ d ∧ d <+: c := by
  rcases List.prefix_or_prefix_of_prefix h (List.prefix_append b c) with hp | ⟨d, rfl⟩
  · exact .inl hp
  · exact .inr ⟨d, rfl, (List.prefix_append_right_inj b).mp h⟩

theorem Torn.scan_eq_short {part : List UInt8} (h : Torn scan part) (hstable : Scan.Stable scan) :
    scan part = .short := by
  obtain ⟨-, more, a, hmore, hdone⟩ := h
  exact hstable.eq_short_of_done hdone hmore

/-- A cut through lines leaves whole lines, and perhaps the beginning of one more. -/
theorem Lines.of_prefix {items : List α} {b p : List UInt8} (h : Lines scan items b)
    (hp : p <+: b) :
    ∃ done c part, done <+: items ∧ Lines scan done c ∧ p = c ++ part ∧
      (part = [] ∨ Torn scan part) := by
  induction h generalizing p with
  | nil =>
    obtain rfl := List.prefix_nil.mp hp
    exact ⟨[], [], [], List.nil_prefix, .nil, rfl, .inl rfl⟩
  | @cons a items line b hline _ ih =>
    rcases prefix_append_cases hp with ⟨more, rfl⟩ | ⟨p, rfl, hrest⟩
    · by_cases hmore : more = []
      · subst hmore
        rw [List.append_nil] at hline
        exact ⟨[a], p, [], by simp, by simpa using Lines.cons hline .nil, by simp, .inl rfl⟩
      · by_cases hpart : p = []
        · exact ⟨[], [], p, List.nil_prefix, .nil, rfl, .inl hpart⟩
        · exact ⟨[], [], p, List.nil_prefix, .nil, rfl, .inr ⟨hpart, more, a, hmore, hline⟩⟩
    · obtain ⟨done, c, part, hdone, hlines, rfl, hpart⟩ := ih hrest
      exact ⟨a :: done, line ++ c, part, by simpa using hdone, .cons hline hlines, by simp, hpart⟩

end

theorem Lines.exists_behind {records some : List Record} {b c rest : List UInt8}
    (h : Lines Record.scan some c) (hall : Lines Record.scan records b) (hb : b = c ++ rest) :
    ∃ more, records = some ++ more ∧ Lines Record.scan more rest := by
  induction h generalizing records b with
  | nil =>
    obtain rfl : b = rest := hb
    exact ⟨records, rfl, hall⟩
  | @cons record some line c hline _ ih =>
    have hfirst : Record.scan b = .done record (c ++ rest) := by
      rw [hb, List.append_assoc]
      exact Record.scan_append hline
    cases hall with
    | nil => exact absurd (Record.scan_length hfirst) (Nat.not_lt_zero _)
    | cons hline' hall =>
      rw [Record.scan_append hline'] at hfirst
      cases hfirst
      obtain ⟨more, rfl, hmore⟩ := ih hall rfl
      exact ⟨more, rfl, hmore⟩

theorem Lines.head?_ne_sectionDelimiter {records : List Record} {b : List UInt8}
    (h : Lines Record.scan records b) : b.head? ≠ some sectionDelimiter := by
  cases h with
  | nil => exact nofun
  | cons hline =>
    obtain ⟨digits, tag, params, ht, -, -, -, rfl⟩ := Record.scan_eq_done_iff.mp hline
    rw [List.append_nil]
    exact head?_recordLine_ne ht tag params _

/-- The bytes go at least as far as the section delimiter: it stands behind lines of records. -/
def ReachesDelimiter (b : List UInt8) : Prop :=
  ∃ records c, Lines Record.scan records c ∧ c ++ [sectionDelimiter] <+: b

theorem Lines.not_reachesDelimiter {records : List Record} {b : List UInt8}
    (h : Lines Record.scan records b) : ¬ ReachesDelimiter b := by
  rintro ⟨some, c, hlines, rest, hb⟩
  rw [List.append_assoc] at hb
  obtain ⟨more, -, hmore⟩ := hlines.exists_behind h hb.symm
  exact hmore.head?_ne_sectionDelimiter rfl

/-- What the beginning of a trace with these records and entries can be: the records and entries up
to the end of a line, or up to a line that has begun. -/
inductive Cut (records : List Record) (entries : List Entry) : List UInt8 → Prop where
  | between {first : List Record} {bound : List Entry} {p : List UInt8}
      (h : Layout first bound p) (hfirst : first <+: records) (hbound : bound <+: entries)
      (hwhole : ReachesDelimiter p → first = records) : Cut records entries p
  | inRecord {first : List Record} {c part : List UInt8} (hfirst : first <+: records)
      (h : Lines Record.scan first c) (hpart : Torn Record.scan part) :
      Cut records entries (c ++ part)
  | inEntry {bound : List Entry} {c d part : List UInt8} (hbound : bound <+: entries)
      (h : Lines Record.scan records c) (h' : Lines Entry.scan bound d)
      (hpart : Torn Entry.scan part) : Cut records entries (c ++ (delimiterLine ++ (d ++ part)))

section

variable {records : List Record} {entries : List Entry} {b c d p : List UInt8}

theorem cut_of_prefix_records (h : Lines Record.scan records c) (hp : p <+: c) :
    Cut records entries p := by
  obtain ⟨first, c, part, hfirst, hlines, rfl, rfl | hpart⟩ := h.of_prefix hp
  · rw [List.append_nil]
    exact .between (.records hlines) hfirst List.nil_prefix
      fun hreach => absurd hreach hlines.not_reachesDelimiter
  · exact .inRecord hfirst hlines hpart

theorem cut_of_prefix_entries (h : Lines Record.scan records c) (h' : Lines Entry.scan entries d)
    (hp : p <+: d) : Cut records entries (c ++ (delimiterLine ++ p)) := by
  obtain ⟨bound, d, part, hbound, hlines, rfl, rfl | hpart⟩ := h'.of_prefix hp
  · rw [List.append_nil]
    exact .between (.table h hlines) List.prefix_rfl hbound fun _ => rfl
  · exact .inEntry hbound h hlines hpart

/-- A trace can be cut in no other way. -/
theorem Layout.cut (h : Layout records entries b) (hp : p <+: b) : Cut records entries p := by
  cases h with
  | records h => exact cut_of_prefix_records h hp
  | @delimiter c h =>
    rcases List.prefix_concat_iff.mp hp with rfl | hp
    · exact .between (.delimiter h) List.prefix_rfl List.prefix_rfl fun _ => rfl
    · exact cut_of_prefix_records h hp
  | @table _ c d h h' =>
    rcases prefix_append_cases hp with hrecords | ⟨p, rfl, hbehind⟩
    · exact cut_of_prefix_records h hrecords
    · rcases List.prefix_cons_iff.mp hbehind with rfl | ⟨p, rfl, hline⟩
      · exact cut_of_prefix_records h (by simp)
      · rcases List.prefix_cons_iff.mp hline with rfl | ⟨p, rfl, hentries⟩
        · exact .between (.delimiter h) List.prefix_rfl List.nil_prefix fun _ => rfl
        · exact cut_of_prefix_entries h h' hentries

end

/-! ### Loading what is left -/

namespace Reader

variable {r : Reader} {b : List UInt8}

theorem Gives.exists_truncated {α : Type} {n : Nat} {rest : List UInt8}
    {x : Reader × Except Fault α} (hr : r.Gives b)
    (h : r.Follows (.error (.truncatedRecord n), rest) x) :
    ∃ r', x = (r', .error (.truncatedRecord n)) := by
  obtain ⟨r', answer⟩ := x
  obtain ⟨used, -, -, halike⟩ := h.of_reliable hr.reliable
  cases halike with
  | error h =>
    cases h with
    | same => exact ⟨r', rfl⟩

end Reader

theorem Torn.head?_ne_sectionDelimiter {part : List UInt8} (h : Torn Record.scan part) :
    part.head? ≠ some sectionDelimiter := by
  obtain ⟨hne, more, record, -, hdone⟩ := h
  obtain ⟨c, part, rfl⟩ := List.exists_cons_of_ne_nil hne
  exact (Lines.cons hdone .nil).head?_ne_sectionDelimiter

theorem exists_loadRecords_of_torn {r : Reader} {s : Loading} {part : List UInt8}
    (hpart : Torn Record.scan part) (hr : r.Gives part) :
    ∃ r', loadRecords r s = (r', .error (.truncatedRecord part.length)) := by
  have hf := hr.readRecord
  have hend : ¬ AtEnd part := by
    rintro (hnil | hhead)
    · exact hpart.1 hnil
    · exact hpart.head?_ne_sectionDelimiter hhead
  have hwhole : Whole.record part = (.error (.truncatedRecord part.length), part) := by
    simp [Whole.record, hend, Whole.item, hpart.scan_eq_short Record.stable_scan, Except.map]
  rw [hwhole] at hf
  obtain ⟨r', hread⟩ := hr.exists_truncated hf
  exact ⟨r', by rw [loadRecords, hread]⟩

theorem loadEntries_of_torn {r : Reader} {t : StatementTable} {part : List UInt8}
    (hpart : Torn Entry.scan part) (hr : r.Gives part) :
    loadEntries r t = .error (.truncatedRecord part.length) := by
  have hf := hr.readEntry
  have hwhole : Whole.entry part = (.error (.truncatedRecord part.length), part) := by
    simp [Whole.entry, hpart.1, Whole.item, hpart.scan_eq_short Entry.stable_scan, Except.map]
  rw [hwhole] at hf
  obtain ⟨r', hread⟩ := hr.exists_truncated hf
  rw [loadEntries, hread]

section

variable {source : Source} {capacity : Nat} {r r' : Reader} {s : Loading} {fault : Fault}

theorem load_of_records_error
    (h : loadRecords (.ofSource source capacity) .initial = (r, .error fault)) :
    load source capacity = .error fault := by
  simp [load, h, bind, Except.bind]

theorem load_of_opened (h : loadRecords (.ofSource source capacity) .initial = (r, .ok s))
    (hopened : s.opened ≠ none) : load source capacity = .error .incompleteTransaction := by
  obtain ⟨t, ht⟩ := Option.ne_none_iff_exists'.mp hopened
  simp [load, h, ht, bind, Except.bind, throw, throwThe, MonadExceptOf.throw]

theorem load_of_entries_error
    (h : loadRecords (.ofSource source capacity) .initial = (r, .ok s)) (hopened : s.opened = none)
    (hskip : r.skipSectionDelimiter = (r', .ok true))
    (hentries : loadEntries r' s.statements = .error fault) :
    load source capacity = .error fault := by
  simp [load, h, hopened, hskip, hentries, bind, Except.bind]

end

/-- What loading the beginning `p` of a trace comes to, where loading all of it gives `q`. -/
inductive LoadsPart (q : Queue) (p : List UInt8) : Except Fault Queue → Prop where
  | truncated (unread : Nat) : LoadsPart q p (.error (.truncatedRecord unread))
  | incomplete : LoadsPart q p (.error .incompleteTransaction)
  | unresolved (id : UInt32) : LoadsPart q p (.error (.unresolvedStatement id))
  | loaded {part : Queue} (htransactions : part.transactions <+: q.transactions)
      (hwhole : ReachesDelimiter p → part.transactions = q.transactions)
      (hstatements : part.statements.Within q.statements)
      (hcalls : ∀ t ∈ part.transactions, ∀ call ∈ t.calls, ∀ key, call.target = .statement key →
        ∃ sql, part.statements.resolve key = some sql ∧ q.statements.resolve key = some sql) :
      LoadsPart q p (.ok part)

theorem Loading.Runs.exists_split {s u : Loading} {first more : List Record}
    (h : Loading.Runs s (first ++ more) u) :
    ∃ v, Loading.Runs s first v ∧ Loading.Runs v more u := by
  induction first generalizing s with
  | nil => exact ⟨s, .nil s, h⟩
  | cons record first ih =>
    cases h with
    | cons hstep h =>
      obtain ⟨v, hfirst, hmore⟩ := ih h
      exact ⟨v, .cons hstep hfirst, hmore⟩

theorem Loading.Steps.transactions_suffix {s s' : Loading} {r : Record} (h : Loading.Steps s r s') :
    s.transactions <:+ s'.transactions := by
  cases h with
  | begin => exact List.suffix_rfl
  | close => exact List.suffix_cons _ _
  | call =>
    unfold Loading.call
    split
    · exact List.suffix_rfl
    · exact List.suffix_cons _ _

theorem Loading.Runs.transactions_suffix {s u : Loading} {records : List Record}
    (h : Loading.Runs s records u) : s.transactions <:+ u.transactions := by
  induction h with
  | nil => exact List.suffix_rfl
  | cons hstep _ ih => exact (Loading.step_eq_ok_iff.mp hstep).transactions_suffix.trans ih

theorem Inserts.exists_split {t u : StatementTable} {bound more : List Entry}
    (h : Inserts t (bound ++ more) u) : ∃ v, Inserts t bound v ∧ Inserts v more u := by
  induction bound generalizing t with
  | nil => exact ⟨t, .nil t, h⟩
  | cons entry bound ih =>
    cases h with
    | cons hinsert h =>
      obtain ⟨v, hbound, hmore⟩ := ih h
      exact ⟨v, .cons hinsert hbound, hmore⟩

theorem within_of_prefix {t u : StatementTable} (hinline : t.inline.toList <+: u.inline.toList)
    (hinterned : t.interned <:+ u.interned) (hdistinct : (u.interned.map Prod.fst).Nodup) :
    t.Within u where
  inline := hinline
  interned := hinterned
  resolve := by
    intro key sql h
    cases key with
    | interned id =>
      have hdistinct' := hdistinct.sublist (hinterned.sublist.map Prod.fst)
      have hmem := (interned?_eq_some_iff hdistinct').mp h
      exact (interned?_eq_some_iff hdistinct).mpr (hinterned.subset hmem)
    | inline index =>
      obtain ⟨more, hmore⟩ := hinline
      rw [StatementTable.resolve, ← Array.getElem?_toList] at h ⊢
      obtain ⟨hlt, -⟩ := List.getElem?_eq_some_iff.mp h
      rw [← hmore, List.getElem?_append_left hlt, h]

section

variable {source : Source} {records : List Record} {entries : List Entry} {u : Loading}
  {c d part : List UInt8}

theorem load_of_torn_record (hs : source.Reliable) (capacity : Nat)
    (hbytes : source.bytes = c ++ part) (hlines : Lines Record.scan records c)
    (hblank : ∀ record ∈ records, record.isBlank = false)
    (hruns : Loading.Runs .initial records u) (hpart : Torn Record.scan part) :
    load source capacity = .error (.truncatedRecord part.length) := by
  have hr := Reader.gives_ofSource hs capacity
  rw [hbytes] at hr
  obtain ⟨r, hload, hgives⟩ := exists_loadRecords_eq_of_lines hlines hblank hruns hr
  obtain ⟨r', htorn⟩ := exists_loadRecords_of_torn hpart hgives
  exact load_of_records_error (hload.trans htorn)

theorem load_of_torn_entry (hs : source.Reliable) (capacity : Nat) {statements : StatementTable}
    (hbytes : source.bytes = c ++ (delimiterLine ++ (d ++ part)))
    (hlines : Lines Record.scan records c) (hblank : ∀ record ∈ records, record.isBlank = false)
    (hruns : Loading.Runs .initial records u) (hopened : u.opened = none)
    (hlines' : Lines Entry.scan entries d) (hinserts : Inserts u.statements entries statements)
    (hpart : Torn Entry.scan part) :
    load source capacity = .error (.truncatedRecord part.length) := by
  have hr := Reader.gives_ofSource hs capacity
  rw [hbytes] at hr
  obtain ⟨r, hload, hgives⟩ := exists_loadRecords_of_lines hlines (.inr rfl) hblank hruns hr
  have hf := hgives.skipSectionDelimiter
  rw [Whole.skipDelimiter_eq_true_iff.mpr (.inr rfl)] at hf
  obtain ⟨r', hskip, hgives'⟩ := hgives.exists_ok hf
  obtain ⟨r'', hentries, hgives''⟩ := exists_loadEntries_eq_of_lines hlines' hinserts hgives'
  exact load_of_entries_error hload hopened hskip
    (hentries.trans (loadEntries_of_torn hpart hgives''))

theorem load_of_runs_opened (hs : source.Reliable) (capacity : Nat)
    (hlayout : Layout records entries source.bytes)
    (hblank : ∀ record ∈ records, record.isBlank = false)
    (hruns : Loading.Runs .initial records u) (hopened : u.opened ≠ none) :
    load source capacity = .error .incompleteTransaction := by
  obtain ⟨c, rest, -, -, hbytes, hlines, hend, -, -⟩ := layout_iff.mp hlayout
  have hr := Reader.gives_ofSource hs capacity
  rw [hbytes] at hr
  obtain ⟨r, hload, -⟩ := exists_loadRecords_of_lines hlines hend hblank hruns hr
  exact load_of_opened hload hopened

end

theorem loadsPart_of_layout {source : Source} (hs : source.Reliable) (capacity : Nat)
    {records first : List Record} {entries bound : List Entry} {u : Loading}
    {statements : StatementTable} (hblank : ∀ record ∈ records, record.isBlank = false)
    (hruns : Loading.Runs .initial records u) (hinserts : Inserts u.statements entries statements)
    (hlayout : Layout first bound source.bytes) (hfirst : first <+: records)
    (hbound : bound <+: entries) (hwhole : ReachesDelimiter source.bytes → first = records) :
    LoadsPart ⟨u.transactions.reverse, statements⟩ source.bytes (load source capacity) := by
  obtain ⟨hdistinct, -, hstatements⟩ := inserts_iff.mp hinserts
  rw [statements_of_runs hruns, List.append_nil] at hstatements
  obtain ⟨more, rfl⟩ := hfirst
  have hblank' : ∀ record ∈ first, record.isBlank = false := fun record hrecord =>
    hblank record (List.mem_append_left _ hrecord)
  obtain ⟨v, hv, hrest⟩ := hruns.exists_split
  by_cases hopened : v.opened = none
  · let table : StatementTable :=
      ⟨(bound.map Entry.binding).reverse, (inlineTexts first).toArray⟩
    have hbinds : Inserts v.statements bound table := by
      rw [inserts_iff, statements_of_runs hv, List.append_nil]
      exact ⟨hdistinct.sublist (hbound.sublist.map _), fun _ _ => List.not_mem_nil, rfl⟩
    have hload := load_of_runs hs capacity hlayout hblank' hv hopened hbinds
    cases hresolved : unresolved? table v.referenced with
    | some id =>
      rw [hload, hresolved]
      exact .unresolved id
    | none =>
      rw [hresolved, Option.elim_none] at hload
      have hwithin : table.Within statements := by
        subst hstatements
        refine within_of_prefix ?_ ?_ ?_
        · rw [inlineTexts_append]
          exact List.prefix_append _ _
        · exact List.reverse_suffix.mpr (hbound.map _)
        · rw [List.map_reverse, List.nodup_reverse, List.map_map]
          exact hdistinct
      rw [hload]
      refine .loaded (List.reverse_prefix.mpr hrest.transactions_suffix) ?_ hwithin ?_
      · intro hreach
        obtain rfl : more = [] := List.append_right_eq_self.mp (hwhole hreach).symm
        cases hrest
        rfl
      · rintro t ht ⟨target, params, time⟩ hcall key rfl
        obtain ⟨sql, hsql, -⟩ := (replayable_of_load hload t ht).resolves hcall
        exact ⟨sql, hsql, hwithin.resolve key sql hsql⟩
  · rw [load_of_runs_opened hs capacity hlayout hblank' hv hopened]
    exact .incomplete

/-- Where a trace is loaded, loading any beginning of it fails as that of a truncated trace, or
gives a part of what the trace means. -/
theorem loadsPart_of_prefix {s t : Source} (hs : s.Reliable) (ht : t.Reliable) {m : Nat} (n : Nat)
    {q : Queue} (h : load s m = .ok q) (hp : t.bytes <+: s.bytes) :
    LoadsPart q t.bytes (load t n) := by
  obtain ⟨records, entries, hlayout, hmeans⟩ := exists_layout_of_load hs h
  obtain ⟨hblank, u, statements, hruns, hopened, hinserts, -, rfl⟩ := means_iff.mp hmeans
  have hcut := hlayout.cut hp
  generalize hb : t.bytes = p at hcut
  cases hcut with
  | between hlayout' hfirst hbound hwhole =>
    subst hb
    exact loadsPart_of_layout ht n hblank hruns hinserts hlayout' hfirst hbound hwhole
  | inRecord hfirst hlines hpart =>
    obtain ⟨more, rfl⟩ := hfirst
    obtain ⟨v, hv, -⟩ := hruns.exists_split
    rw [load_of_torn_record ht n hb hlines
      (fun record hrecord => hblank record (List.mem_append_left _ hrecord)) hv hpart]
    exact .truncated _
  | inEntry hbound hlines hlines' hpart =>
    obtain ⟨more, rfl⟩ := hbound
    obtain ⟨v, hv, -⟩ := hinserts.exists_split
    rw [load_of_torn_entry ht n hb hlines hblank hruns hopened hlines' hv hpart]
    exact .truncated _

/-- Cut behind its first line, a trace loads as that line alone. -/
theorem loadsPart_of_prefix_first_line :
    let s : Source :=
      [.bytes (Text.bytes "1f,\"SELECT 1\",\"\"\n20,\"7\",\"\"\n#\n7,\"INSERT\"\n")]
    let t : Source := [.bytes (Text.bytes "1f,\"SELECT"), .interrupted,
      .bytes (Text.bytes " 1\",\"\"\n")]
    let call : Call := .ofStatement (.inline 0) [] 0x1f
    let q : Queue := ⟨[.implicit call, .implicit (.ofStatement (.interned 7) [] 0x20)],
      ⟨[(7, "INSERT")], #["SELECT 1"]⟩⟩
    load s 64 = .ok q ∧ t.bytes <+: s.bytes ∧ LoadsPart q t.bytes (load t 1) ∧
      load t 1 = .ok ⟨[.implicit call], ⟨[], #["SELECT 1"]⟩⟩ := by
  intro s t call q
  have hload : load s 64 = .ok q := by decide +kernel
  have hprefix : t.bytes <+: s.bytes := by decide
  have hs : s.Reliable := fun reason h => by simp [s] at h
  have ht : t.Reliable := fun reason h => by simp [t] at h
  exact ⟨hload, hprefix, loadsPart_of_prefix hs ht 1 hload hprefix, by decide +kernel⟩

end Trace

end WorkloadReplay
