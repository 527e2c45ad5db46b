import WorkloadReplay.Proofs.ReaderAnswers
import WorkloadReplay.Proofs.RecordRoundTrip
import WorkloadReplay.Proofs.TransactionGrammar

/-!
# Reading the sections of a trace

Loading reads the records as far as there are lines of records, and the entries to the end of the
bytes. Both are said for a reader of a reliable source in terms of the bytes that it has still to
give.
-/

namespace WorkloadReplay.Trace

/-- The bytes are one line for each item, and nothing else. -/
inductive Lines {α : Type} (scan : List UInt8 → Scan α) : List α → List UInt8 → Prop where
  | nil : Lines scan [] []
  | cons {a : α} {items : List α} {line b : List UInt8} (h : scan line = .done a [])
      (hs : Lines scan items b) : Lines scan (a :: items) (line ++ b)

theorem Record.scan_append {line rest : List UInt8} {record : Record}
    (h : Record.scan line = .done record []) : Record.scan (line ++ rest) = .done record rest := by
  obtain ⟨digits, tag, params, ht, htag, hpair, hparams, rfl⟩ := Record.scan_eq_done_iff.mp h
  apply Record.scan_eq_done_iff.mpr
  exact ⟨digits, tag, params, ht, htag, hpair, hparams, by simp⟩

theorem Record.exists_line {b rest : List UInt8} {record : Record}
    (h : Record.scan b = .done record rest) :
    ∃ line, Record.scan line = .done record [] ∧ b = line ++ rest := by
  obtain ⟨digits, tag, params, ht, htag, hpair, hparams, rfl⟩ := Record.scan_eq_done_iff.mp h
  refine ⟨recordLine digits tag params, ?_, rfl⟩
  apply Record.scan_eq_done_iff.mpr
  exact ⟨digits, tag, params, ht, htag, hpair, hparams, by simp⟩

theorem Entry.scan_append {line rest : List UInt8} {entry : Entry}
    (h : Entry.scan line = .done entry []) : Entry.scan (line ++ rest) = .done entry rest := by
  obtain ⟨digits, hn, hid, rfl⟩ := Entry.scan_eq_done_iff.mp h
  apply Entry.scan_eq_done_iff.mpr
  exact ⟨digits, hn, hid, by simp⟩

theorem Entry.exists_line {b rest : List UInt8} {entry : Entry}
    (h : Entry.scan b = .done entry rest) :
    ∃ line, Entry.scan line = .done entry [] ∧ b = line ++ rest := by
  obtain ⟨digits, hn, hid, rfl⟩ := Entry.scan_eq_done_iff.mp h
  refine ⟨entryLine digits (Text.bytes entry.sql), ?_, rfl⟩
  apply Entry.scan_eq_done_iff.mpr
  exact ⟨digits, hn, hid, by simp⟩

def Record.Survives (r : Record) : Prop :=
  ¬ r.tag.Collides ∧ r.params.map Value.canonical = r.params

theorem Record.scan_encode_of_survives {r : Record} (h : r.Survives) :
    Record.scan r.encode = .done r [] := by
  have hscan := r.scan_encode []
  rw [List.append_nil, (Tag.readBack_eq_self_iff r.tag).mpr h.1, h.2] at hscan
  exact hscan

theorem lines_encode {records : List Record} (h : ∀ r ∈ records, r.Survives) :
    Lines Record.scan records (records.flatMap Record.encode) := by
  induction records with
  | nil => exact .nil
  | cons r records ih =>
    rw [List.flatMap_cons]
    exact .cons (Record.scan_encode_of_survives (h r List.mem_cons_self))
      (ih fun r hr => h r (List.mem_cons_of_mem _ hr))

theorem lines_encode_entries (entries : List Entry) :
    Lines Entry.scan entries (entries.flatMap Entry.encode) := by
  induction entries with
  | nil => exact .nil
  | cons e entries ih =>
    have hscan := e.scan_encode []
    rw [List.append_nil] at hscan
    rw [List.flatMap_cons]
    exact .cons hscan ih

namespace Whole

theorem item_eq_ok_iff {α : Type} {scan : List UInt8 → Scan α} {b rest : List UInt8} {a : α} :
    item scan b = (.ok a, rest) ↔ scan b = .done a rest := by
  unfold item
  cases scan b with
  | done a rest => simp
  | malformed problem => simp
  | bad fault => simp
  | short => simp

private theorem map_some_eq_iff {α : Type} {x : Except Fault α × List UInt8} {a : α}
    {rest : List UInt8} : (x.1.map some, x.2) = (.ok (some a), rest) ↔ x = (.ok a, rest) := by
  obtain ⟨answer, b⟩ := x
  cases answer with
  | ok a => simp [Except.map]
  | error fault => simp [Except.map]

private theorem map_some_ne {α : Type} {x : Except Fault α × List UInt8} {rest : List UInt8} :
    (x.1.map some, x.2) ≠ (.ok none, rest) := by
  obtain ⟨answer, b⟩ := x
  cases answer with
  | ok a => simp [Except.map]
  | error fault => simp [Except.map]

theorem record_eq_none_iff {b rest : List UInt8} :
    record b = (.ok none, rest) ↔ AtEnd b ∧ b = rest := by
  unfold record
  split
  · rename_i hend
    simp [hend]
  · rename_i hend
    exact ⟨fun h => absurd h map_some_ne, fun h => absurd h.1 hend⟩

theorem record_eq_some_iff {b rest : List UInt8} {r : Record} :
    record b = (.ok (some r), rest) ↔ Record.scan b = .done r rest := by
  unfold record
  split
  · rename_i hend
    simp only [Prod.mk.injEq, Except.ok.injEq, reduceCtorEq, false_and, false_iff]
    intro h
    obtain ⟨digits, tag, params, ht, -, -, -, rfl⟩ := Record.scan_eq_done_iff.mp h
    cases hend with
    | inl hnil =>
      rw [recordLine_append] at hnil
      simp at hnil
    | inr hhead => exact head?_recordLine_ne ht tag params rest hhead
  · rw [map_some_eq_iff, item_eq_ok_iff]

theorem entry_eq_none_iff {b rest : List UInt8} :
    entry b = (.ok none, rest) ↔ b = [] ∧ b = rest := by
  unfold entry
  split
  · rename_i hnil
    simp [hnil]
  · rename_i hnil
    exact ⟨fun h => absurd h map_some_ne, fun h => absurd h.1 hnil⟩

theorem entry_eq_some_iff {b rest : List UInt8} {e : Entry} :
    entry b = (.ok (some e), rest) ↔ Entry.scan b = .done e rest := by
  unfold entry
  split
  · rename_i hnil
    simp only [Prod.mk.injEq, Except.ok.injEq, reduceCtorEq, false_and, false_iff]
    intro h
    have := Entry.scan_length h
    simp [hnil] at this
  · rw [map_some_eq_iff, item_eq_ok_iff]

theorem skipDelimiter_eq_false_iff {b rest : List UInt8} :
    skipDelimiter b = (.ok false, rest) ↔ b.head? ≠ some sectionDelimiter ∧ b = rest := by
  unfold skipDelimiter
  split
  · rename_i hhead
    split
    · simp [hhead]
    · split
      · simp [hhead]
      · simp [hhead]
  · rename_i hhead
    simp [hhead]

theorem skipDelimiter_eq_true_iff {b rest : List UInt8} :
    skipDelimiter b = (.ok true, rest) ↔
      b = [sectionDelimiter] ∧ rest = [] ∨ b = delimiterLine ++ rest := by
  by_cases hhead : b.head? = some sectionDelimiter
  · obtain ⟨b, rfl⟩ := List.head?_eq_some_iff.mp hhead
    rw [skipDelimiter_cons]
    split
    · rename_i hnil
      simp [hnil, delimiterLine, eq_comm]
    · rename_i hne
      split
      · rename_i hend
        obtain ⟨b, rfl⟩ := List.head?_eq_some_iff.mp hend
        simp [delimiterLine]
      · rename_i hend
        simp only [Prod.mk.injEq, reduceCtorEq, false_and, false_iff]
        rintro (⟨hb, -⟩ | hb)
        · exact hne (List.cons_eq_cons.mp hb).2
        · rw [(List.cons_eq_cons.mp hb).2] at hend
          exact hend rfl
  · rw [skipDelimiter, if_neg hhead]
    simp only [Prod.mk.injEq, Except.ok.injEq, Bool.false_eq_true, false_and, false_iff]
    rintro (⟨rfl, -⟩ | rfl)
    · exact hhead rfl
    · exact hhead rfl

end Whole

namespace Reader

/-- A sound reader of a reliable source, and the bytes that it has still to give. -/
structure Gives (r : Reader) (b : List UInt8) : Prop where
  sound : r.Sound
  reliable : r.source.Reliable
  pending : r.pending = b

variable {α : Type} {r r' : Reader} {b rest : List UInt8}

theorem gives_ofSource {s : Source} (h : s.Reliable) (capacity : Nat) :
    (ofSource s capacity).Gives s.bytes := ⟨sound_ofSource s capacity, h, rfl⟩

theorem Gives.of_ok {whole : Except Fault α × List UInt8} {a : α} (hr : r.Gives b)
    (h : r.Follows whole (r', .ok a)) : ∃ rest, whole = (.ok a, rest) ∧ r'.Gives rest := by
  obtain ⟨used, hu, hrest, ha⟩ := h.of_reliable hr.reliable
  exact ⟨whole.2, Prod.ext (alike_ok_iff.mp ha.symm) rfl, hu.sound, hu.reliable hr.reliable, hrest⟩

theorem Gives.exists_ok {a : α} {x : Reader × Except Fault α} (hr : r.Gives b)
    (h : r.Follows (.ok a, rest) x) : ∃ r', x = (r', .ok a) ∧ r'.Gives rest := by
  obtain ⟨r', answer⟩ := x
  obtain ⟨used, hu, hrest, ha⟩ := h.of_reliable hr.reliable
  exact ⟨r', by rw [alike_ok_iff.mp ha], hu.sound, hu.reliable hr.reliable, hrest⟩

theorem Gives.readRecord (hr : r.Gives b) : r.Follows (Whole.record b) r.readRecord :=
  hr.pending ▸ follows_readRecord hr.sound

theorem Gives.readEntry (hr : r.Gives b) : r.Follows (Whole.entry b) r.readEntry :=
  hr.pending ▸ follows_readEntry hr.sound

theorem Gives.skipSectionDelimiter (hr : r.Gives b) :
    r.Follows (Whole.skipDelimiter b) r.skipSectionDelimiter :=
  hr.pending ▸ follows_skipSectionDelimiter hr.sound hr.reliable

end Reader

theorem exists_lines_of_loadRecords {r r' : Reader} {s u : Loading} {b : List UInt8}
    (hr : r.Gives b) (h : loadRecords r s = (r', .ok u)) :
    ∃ records c rest, b = c ++ rest ∧ Lines Record.scan records c ∧ AtEnd rest ∧ r'.Gives rest ∧
      (∀ record ∈ records, record.isBlank = false) ∧ Loading.Runs s records u := by
  fun_induction loadRecords r s generalizing b with
  | case1 => cases h
  | case2 r s r₁ hread =>
    cases h
    have hf := hr.readRecord
    rw [hread] at hf
    obtain ⟨rest, hwhole, hgives⟩ := hr.of_ok hf
    obtain ⟨hend, rfl⟩ := Whole.record_eq_none_iff.mp hwhole
    exact ⟨[], [], b, rfl, .nil, hend, hgives, by simp, .nil _⟩
  | case3 => cases h
  | case4 => cases h
  | case5 r s r₁ record hread hblank t hstep ih =>
    have hf := hr.readRecord
    rw [hread] at hf
    obtain ⟨rest, hwhole, hgives⟩ := hr.of_ok hf
    obtain ⟨line, hline, rfl⟩ := Record.exists_line (Whole.record_eq_some_iff.mp hwhole)
    obtain ⟨records, c, rest, rfl, hlines, hend, hgives', hblanks, hruns⟩ := ih hgives h
    refine ⟨record :: records, line ++ c, rest, ?_, .cons hline hlines, hend, hgives', ?_,
      .cons hstep hruns⟩
    · rw [List.append_assoc]
    · simpa [hblank] using hblanks

/-- Behind lines of records that can be added, loading goes on as it would from the state that they
lead to. -/
theorem exists_loadRecords_eq_of_lines {r : Reader} {s u : Loading} {records : List Record}
    {c rest : List UInt8} (hlines : Lines Record.scan records c)
    (hblank : ∀ record ∈ records, record.isBlank = false) (hruns : Loading.Runs s records u)
    (hr : r.Gives (c ++ rest)) : ∃ r', loadRecords r s = loadRecords r' u ∧ r'.Gives rest := by
  induction hlines generalizing r s with
  | nil =>
    cases hruns with
    | nil => exact ⟨r, rfl, hr⟩
  | @cons record records line c hline _ ih =>
    cases hruns with
    | cons hstep hruns =>
      rw [List.append_assoc] at hr
      have hf := hr.readRecord
      rw [Whole.record_eq_some_iff.mpr (Record.scan_append hline)] at hf
      obtain ⟨r₁, hread, hgives⟩ := hr.exists_ok hf
      obtain ⟨r', hload, hgives'⟩ :=
        ih (fun r hr => hblank r (List.mem_cons_of_mem _ hr)) hruns hgives
      refine ⟨r', ?_, hgives'⟩
      rw [loadRecords, hread]
      simp [hblank record List.mem_cons_self, hstep, hload]

theorem exists_loadRecords_of_lines {r : Reader} {s u : Loading} {records : List Record}
    {c rest : List UInt8} (hlines : Lines Record.scan records c) (hend : AtEnd rest)
    (hblank : ∀ record ∈ records, record.isBlank = false) (hruns : Loading.Runs s records u)
    (hr : r.Gives (c ++ rest)) : ∃ r', loadRecords r s = (r', .ok u) ∧ r'.Gives rest := by
  obtain ⟨r₁, hload, hgives⟩ := exists_loadRecords_eq_of_lines hlines hblank hruns hr
  have hf := hgives.readRecord
  rw [Whole.record_eq_none_iff.mpr ⟨hend, rfl⟩] at hf
  obtain ⟨r₂, hread, hgives'⟩ := hgives.exists_ok hf
  refine ⟨r₂, ?_, hgives'⟩
  rw [hload, loadRecords, hread]

inductive Inserts : StatementTable → List Entry → StatementTable → Prop where
  | nil (t : StatementTable) : Inserts t [] t
  | cons {t u v : StatementTable} {e : Entry} {es : List Entry}
      (h : t.insert e.id e.sql = .ok u) (hs : Inserts u es v) : Inserts t (e :: es) v

def Entry.binding (e : Entry) : UInt32 × String := (e.id, e.sql)

theorem isSome_interned?_iff {t : StatementTable} {id : UInt32} :
    (t.interned? id).isSome = true ↔ id ∈ t.interned.map Prod.fst := by
  unfold StatementTable.interned?
  simp [List.lookup_isSome_iff]

theorem insert_eq_ok_iff {t u : StatementTable} {e : Entry} :
    t.insert e.id e.sql = .ok u ↔
      e.id ∉ t.interned.map Prod.fst ∧ u = ⟨e.binding :: t.interned, t.inline⟩ := by
  rw [← isSome_interned?_iff]
  unfold StatementTable.insert
  split
  · rename_i h
    simp [h]
  · rename_i h
    simp only [Except.ok.injEq, h, Bool.false_eq_true, not_false_eq_true, true_and]
    exact eq_comm

theorem inserts_iff {t u : StatementTable} {es : List Entry} :
    Inserts t es u ↔
      (es.map Entry.id).Nodup ∧ (∀ e ∈ es, e.id ∉ t.interned.map Prod.fst) ∧
        u = ⟨(es.map Entry.binding).reverse ++ t.interned, t.inline⟩ := by
  induction es generalizing t with
  | nil =>
    constructor
    · intro h
      cases h
      simp
    · rintro ⟨-, -, rfl⟩
      exact .nil t
  | cons e es ih =>
    constructor
    · intro h
      cases h with
      | cons h hs =>
        obtain ⟨hnew, rfl⟩ := insert_eq_ok_iff.mp h
        obtain ⟨hnodup, hnews, rfl⟩ := ih.mp hs
        simp only [List.map_cons, List.mem_cons, not_or] at hnews
        refine ⟨?_, ?_, ?_⟩
        · rw [List.map_cons, List.nodup_cons]
          refine ⟨?_, hnodup⟩
          intro hmem
          obtain ⟨d, hd, hid⟩ := List.mem_map.mp hmem
          exact (hnews d hd).1 hid
        · intro d hd
          cases hd with
          | head => exact hnew
          | tail _ hd => exact (hnews d hd).2
        · simp
    · rintro ⟨hnodup, hnews, rfl⟩
      rw [List.map_cons, List.nodup_cons] at hnodup
      refine .cons (insert_eq_ok_iff.mpr ⟨hnews e List.mem_cons_self, rfl⟩)
        (ih.mpr ⟨hnodup.2, ?_, ?_⟩)
      · intro d hd
        simp only [List.map_cons, List.mem_cons, not_or]
        refine ⟨?_, hnews d (List.mem_cons_of_mem _ hd)⟩
        intro hid
        exact hnodup.1 (List.mem_map.mpr ⟨d, hd, hid⟩)
      · simp

theorem exists_lines_of_loadEntries {r : Reader} {t u : StatementTable} {b : List UInt8}
    (hr : r.Gives b) (h : loadEntries r t = .ok u) :
    ∃ entries, Lines Entry.scan entries b ∧ Inserts t entries u := by
  fun_induction loadEntries r t generalizing b with
  | case1 => cases h
  | case2 r t r₁ hread =>
    cases h
    have hf := hr.readEntry
    rw [hread] at hf
    obtain ⟨rest, hwhole, hgives⟩ := hr.of_ok hf
    obtain ⟨rfl, -⟩ := Whole.entry_eq_none_iff.mp hwhole
    exact ⟨[], .nil, .nil _⟩
  | case3 => cases h
  | case4 r t r₁ entry hread v hinsert ih =>
    have hf := hr.readEntry
    rw [hread] at hf
    obtain ⟨rest, hwhole, hgives⟩ := hr.of_ok hf
    obtain ⟨line, hline, rfl⟩ := Entry.exists_line (Whole.entry_eq_some_iff.mp hwhole)
    obtain ⟨entries, hlines, hinserts⟩ := ih hgives h
    exact ⟨entry :: entries, .cons hline hlines, .cons hinsert hinserts⟩

theorem exists_loadEntries_eq_of_lines {r : Reader} {t u : StatementTable} {entries : List Entry}
    {b rest : List UInt8} (hlines : Lines Entry.scan entries b) (hinserts : Inserts t entries u)
    (hr : r.Gives (b ++ rest)) : ∃ r', loadEntries r t = loadEntries r' u ∧ r'.Gives rest := by
  induction hlines generalizing r t with
  | nil =>
    cases hinserts with
    | nil => exact ⟨r, rfl, hr⟩
  | cons hline _ ih =>
    cases hinserts with
    | cons hinsert hinserts =>
      rw [List.append_assoc] at hr
      have hf := hr.readEntry
      rw [Whole.entry_eq_some_iff.mpr (Entry.scan_append hline)] at hf
      obtain ⟨r₁, hread, hgives⟩ := hr.exists_ok hf
      obtain ⟨r', hload, hgives'⟩ := ih hinserts hgives
      refine ⟨r', ?_, hgives'⟩
      rw [loadEntries, hread]
      simp [hinsert, hload]

theorem loadEntries_of_lines {r : Reader} {t u : StatementTable} {entries : List Entry}
    {b : List UInt8} (hlines : Lines Entry.scan entries b) (hinserts : Inserts t entries u)
    (hr : r.Gives b) : loadEntries r t = .ok u := by
  rw [← List.append_nil b] at hr
  obtain ⟨r₁, hload, hgives⟩ := exists_loadEntries_eq_of_lines hlines hinserts hr
  have hf := hgives.readEntry
  rw [Whole.entry_eq_none_iff.mpr ⟨rfl, rfl⟩] at hf
  obtain ⟨r₂, hread, -⟩ := hgives.exists_ok hf
  rw [hload, loadEntries, hread]

end WorkloadReplay.Trace
