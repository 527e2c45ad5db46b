import WorkloadReplay.Proofs.PlaybackRuns
import WorkloadReplay.Proofs.TraceMeaning

/-!
# What is loaded can be replayed

Loading refers to texts before it knows them. Once it is done, every transaction that it has
gathered is complete, and all its statements have texts. So nothing can go wrong in playing it but
the execution of a statement, and unless that or the sign to stop ends it, all its statements are
executed and it comes to the end that was recorded.
-/

namespace WorkloadReplay

def StatementTable.Resolves (table : StatementTable) (key : StatementKey) : Prop :=
  ∃ sql, table.resolve key = some sql ∧ Text.blank sql = false

def Call.IsStatement (table : StatementTable) (call : Call) : Prop :=
  ∃ key params time, call = .ofStatement key params time ∧ table.Resolves key

/-- A transaction that is complete and whose statements have texts: one statement alone at its own
time, or any number of them before one end, where it is known whether to roll them back. -/
inductive Transaction.Replayable (table : StatementTable) : Transaction → Prop
  | implicit {call : Call} (h : call.IsStatement table) : Replayable table (.implicit call)
  | explicit {time ended : Int64} {calls : List Call} {abort : Bool}
      (h : ∀ call ∈ calls, call.IsStatement table) :
      Replayable table ⟨.explicit (some abort), time, calls ++ [.ofEnd ended]⟩

section

variable {table : StatementTable} {t : Transaction} {acts : List Act}
  {result : Except Fault Outcome}

theorem Transaction.Replayable.resolves (h : t.Replayable table) {key : StatementKey}
    {params : List Value} {time : Int64} (hcall : ⟨.statement key, params, time⟩ ∈ t.calls) :
    table.Resolves key := by
  have hstatement : ∀ call : Call, call.IsStatement table → call.target = .statement key →
      table.Resolves key := by
    rintro call ⟨key', params', time', rfl, hkey⟩ htarget
    cases htarget
    exact hkey
  cases h with
  | @implicit call h =>
    obtain rfl := List.mem_singleton.mp hcall
    exact hstatement _ h rfl
  | @explicit time ended calls abort h =>
    rcases List.mem_append.mp hcall with hcall | hcall
    · exact hstatement _ (h _ hcall) rfl
    · cases List.mem_singleton.mp hcall

end

namespace Trace

/-! Loading from any source, of which nothing but the success is known. -/

theorem exists_runs_of_loadRecords {r r' : Reader} {s u : Loading}
    (h : loadRecords r s = (r', .ok u)) :
    ∃ records, (∀ record ∈ records, record.isBlank = false) ∧ Loading.Runs s records u := by
  fun_induction loadRecords r s with
  | case1 => cases h
  | case2 r s r₁ hread =>
    cases h
    exact ⟨[], List.forall_mem_nil _, .nil _⟩
  | case3 => cases h
  | case4 => cases h
  | case5 r s r₁ record hread hblank t hstep ih =>
    obtain ⟨records, hblanks, hruns⟩ := ih h
    refine ⟨record :: records, ?_, .cons hstep hruns⟩
    exact List.forall_mem_cons.mpr ⟨Bool.eq_false_iff.mpr hblank, hblanks⟩

theorem exists_inserts_of_loadEntries {r : Reader} {t u : StatementTable}
    (h : loadEntries r t = .ok u) : ∃ entries, Inserts t entries u := by
  fun_induction loadEntries r t with
  | case1 => cases h
  | case2 r t r₁ hread =>
    cases h
    exact ⟨[], .nil _⟩
  | case3 => cases h
  | case4 r t r₁ entry hread v hinsert ih =>
    obtain ⟨entries, hinserts⟩ := ih h
    exact ⟨entry :: entries, .cons hinsert hinserts⟩

theorem exists_means_of_load {source : Source} {capacity : Nat} {q : Queue}
    (h : load source capacity = .ok q) : ∃ records entries, Means records entries q := by
  obtain ⟨r, u, r', delimited, statements, hrecords, hopened, -, hentries, hrest⟩ :=
    load_eq_ok_iff_parts.mp h
  obtain ⟨records, hblank, hruns⟩ := exists_runs_of_loadRecords hrecords
  cases delimited with
  | false =>
    cases hentries
    exact ⟨records, [], means_iff.mpr ⟨hblank, u, _, hruns, hopened, .nil _, hrest⟩⟩
  | true =>
    obtain ⟨entries, hinserts⟩ := exists_inserts_of_loadEntries hentries
    exact ⟨records, entries, means_iff.mpr ⟨hblank, u, _, hruns, hopened, hinserts, hrest⟩⟩

/-- All ids that records refer to, and the first keys of inline statements, have texts. -/
structure Provides (table : StatementTable) (records : List Record) (size : Nat) : Prop where
  interned : ∀ id ∈ references records, table.Resolves (.interned id)
  inline : ∀ n < size, table.Resolves (.inline (UInt32.ofNat n))

section

variable {table : StatementTable} {records : List Record} {size n : Nat}

theorem Provides.of_subset {some : List Record} (h : Provides table records size)
    (hsome : some ⊆ records) : Provides table some size where
  interned := by
    intro id hid
    obtain ⟨record, hrecord, hreference⟩ := List.mem_filterMap.mp hid
    exact h.interned id (List.mem_filterMap.mpr ⟨record, hsome hrecord, hreference⟩)
  inline := h.inline

theorem Provides.isStatement {r : Record} {c : Call} (h : Provides table records size)
    (hr : r ∈ records) (hsize : n + (inlineTexts [r]).length ≤ size)
    (hcall : r.call? n = some c) : c.IsStatement table := by
  unfold Record.call? at hcall
  split at hcall
  · rename_i id htag
    cases hcall
    refine ⟨_, _, _, rfl, h.interned id (List.mem_filterMap.mpr ⟨r, hr, ?_⟩)⟩
    rw [Record.reference?, htag]
  · rename_i sql htag
    cases hcall
    refine ⟨_, _, _, rfl, h.inline n ?_⟩
    rw [inlineTexts_cons, Record.text?, htag] at hsize
    exact hsize
  · cases hcall

theorem Provides.isStatement_of_calls {cs : List Call} (h : Provides table records size)
    (hcalls : Calls n records cs) (hsize : n + (inlineTexts records).length ≤ size) :
    ∀ c ∈ cs, c.IsStatement table := by
  induction hcalls with
  | nil n => exact List.forall_mem_nil _
  | @cons n r c rs cs hcall _ ih =>
    rw [length_inlineTexts_cons] at hsize
    refine List.forall_mem_cons.mpr ⟨?_, ?_⟩
    · exact h.isStatement List.mem_cons_self (by omega) hcall
    · exact ih (h.of_subset (List.subset_cons_self _ _)) (by omega)

theorem Provides.replayable_of_parses {ts : List Transaction} (h : Provides table records size)
    (hparses : Parses n records ts) (hsize : n + (inlineTexts records).length ≤ size) :
    ∀ t ∈ ts, t.Replayable table := by
  induction hparses with
  | nil n => exact List.forall_mem_nil _
  | @implicit n r c rs ts hcall _ ih =>
    rw [length_inlineTexts_cons] at hsize
    refine List.forall_mem_cons.mpr ⟨.implicit ?_, ?_⟩
    · exact h.isStatement List.mem_cons_self (by omega) hcall
    · exact ih (h.of_subset (List.subset_cons_self _ _)) (by omega)
  | @explicit n b e body rs cs abort ts hbegin hcalls hend _ ih =>
    have hbody : body ⊆ b :: (body ++ e :: rs) := fun r hr =>
      List.mem_cons_of_mem _ (List.mem_append_left _ hr)
    have hrest : rs ⊆ b :: (body ++ e :: rs) := fun r hr =>
      List.mem_cons_of_mem _ (List.mem_append_right _ (List.mem_cons_of_mem _ hr))
    rw [length_inlineTexts_cons, inlineTexts_append, List.length_append,
      length_inlineTexts_cons e] at hsize
    refine List.forall_mem_cons.mpr ⟨.explicit ?_, ?_⟩
    · exact (h.of_subset hbody).isStatement_of_calls hcalls (by omega)
    · exact ih (h.of_subset hrest) (by omega)

end

theorem Means.provides {records : List Record} {entries : List Entry} {q : Queue}
    (h : Means records entries q) :
    Provides q.statements records (inlineTexts records).length where
  interned := by
    intro id hid
    have htext := (hasText_iff h.distinct h.interned).mpr (h.resolved id hid)
    unfold hasText at htext
    split at htext
    · rename_i sql hsql
      exact ⟨sql, hsql, by simpa using htext⟩
    · cases htext
  inline := by
    intro n hn
    have hkey : (UInt32.ofNat n).toNat < (inlineTexts records).length := by
      rw [UInt32.toNat_ofNat']
      exact Nat.lt_of_le_of_lt (Nat.mod_le _ _) hn
    refine ⟨(inlineTexts records)[(UInt32.ofNat n).toNat], ?_, ?_⟩
    · rw [h.resolveInline, List.getElem?_eq_getElem hkey]
    · obtain ⟨record, hrecord, htext⟩ := List.mem_filterMap.mp (List.getElem_mem hkey)
      unfold Record.text? at htext
      split at htext
      · rename_i sql htag
        rw [← Option.some.inj htext]
        exact h.notBlank record hrecord sql htag
      · cases htext

/-- Every transaction that has been loaded can be replayed. -/
theorem replayable_of_load {source : Source} {capacity : Nat} {q : Queue}
    (h : load source capacity = .ok q) : ∀ t ∈ q.transactions, t.Replayable q.statements := by
  obtain ⟨records, entries, hmeans⟩ := exists_means_of_load h
  exact hmeans.provides.replayable_of_parses hmeans.parses (Nat.zero_add _).le

end Trace

end WorkloadReplay
