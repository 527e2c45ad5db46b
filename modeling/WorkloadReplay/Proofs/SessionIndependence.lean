import WorkloadReplay.Proofs.SameTransactions
import Mathlib.Data.List.Dedup
import Mathlib.Data.Set.Defs

/-!
# Sessions do not interfere

The rows of some sessions alone are gathered as they are among those of all sessions: the same
transactions come of them, except that their texts may have other ids. And rows are refused only
for what stands in the rows of their own session, so sessions that are gathered alone are gathered
in every order of their rows.
-/

namespace WorkloadReplay.Conversion
open Log

/-! The transactions of some sessions. -/

section

variable {p : String → Bool} {vxid : String} {ts us : List LoggedTransaction}

def ofSessions (p : String → Bool) (ts : List LoggedTransaction) : List LoggedTransaction :=
  ts.filter fun t => p t.vxid

theorem ofSessions_cons_of_pos {t : LoggedTransaction} (h : p t.vxid = true) :
    ofSessions p (t :: ts) = t :: ofSessions p ts := List.filter_cons_of_pos h

theorem ofSessions_cons_of_neg {t : LoggedTransaction} (h : p t.vxid = false) :
    ofSessions p (t :: ts) = ofSessions p ts := List.filter_cons_of_neg (by simpa using h)

theorem ofSessions_updateFirst {change : LoggedTransaction → LoggedTransaction}
    (h : p vxid = true) (hchange : ∀ t, (change t).vxid = t.vxid) :
    ofSessions p (updateFirst vxid change ts) = updateFirst vxid change (ofSessions p ts) := by
  induction ts with
  | nil => rfl
  | cons t ts ih =>
    rw [updateFirst]
    split
    · rename_i hopen
      have hp : p t.vxid = true := by rw [(isOpenFor_iff.mp hopen).2, h]
      rw [ofSessions_cons_of_pos (by rw [hchange, hp]), ofSessions_cons_of_pos hp, updateFirst,
        if_pos hopen]
    · rename_i hclosed
      cases hp : p t.vxid with
      | true =>
        rw [ofSessions_cons_of_pos hp, ofSessions_cons_of_pos hp, updateFirst, if_neg hclosed, ih]
      | false => rw [ofSessions_cons_of_neg hp, ofSessions_cons_of_neg hp, ih]

theorem ofSessions_updateFirst_of_not {change : LoggedTransaction → LoggedTransaction}
    (h : p vxid = false) (hchange : ∀ t, (change t).vxid = t.vxid) :
    ofSessions p (updateFirst vxid change ts) = ofSessions p ts := by
  induction ts with
  | nil => rfl
  | cons t ts ih =>
    rw [updateFirst]
    split
    · rename_i hopen
      have hp : p t.vxid = false := by rw [(isOpenFor_iff.mp hopen).2, h]
      rw [ofSessions_cons_of_neg (by rw [hchange, hp]), ofSessions_cons_of_neg hp]
    · cases hp : p t.vxid with
      | true => rw [ofSessions_cons_of_pos hp, ofSessions_cons_of_pos hp, ih]
      | false => rw [ofSessions_cons_of_neg hp, ofSessions_cons_of_neg hp, ih]

theorem hasOpen_ofSessions (h : p vxid = true) :
    hasOpen (ofSessions p ts) vxid = hasOpen ts vxid := by
  rw [hasOpen, hasOpen, ofSessions, List.any_filter]
  congr 1
  funext t
  by_cases hv : t.vxid = vxid
  · rw [hv, h, Bool.true_and]
  · simp [LoggedTransaction.isOpenFor, hv]

theorem hasOpen_of_same {texts texts' : Array String}
    (h : List.Forall₂ (SameTransaction texts texts') ts us) (vxid : String) :
    hasOpen ts vxid = hasOpen us vxid := by
  induction h with
  | nil => rfl
  | cons htu _ ih =>
    rw [hasOpen, hasOpen, List.any_cons, List.any_cons, htu.isOpenFor]
    exact congrArg _ ih

theorem same_updateFirst {texts texts' : Array String}
    {change change' : LoggedTransaction → LoggedTransaction}
    (hchange : ∀ t u, SameTransaction texts texts' t u →
      SameTransaction texts texts' (change t) (change' u))
    (h : List.Forall₂ (SameTransaction texts texts') ts us) :
    List.Forall₂ (SameTransaction texts texts') (updateFirst vxid change ts)
      (updateFirst vxid change' us) := by
  induction h with
  | nil => exact .nil
  | @cons t u ts us htu hs ih =>
    rw [updateFirst, updateFirst, htu.isOpenFor]
    split
    · exact .cons (hchange t u htu) hs
    · exact .cons htu ih

end

/-! What an event does, by its kind. -/

section

variable {c : Conversion} {e : Event}

theorem apply_begin (h : e.kind = .begin) :
    c.apply e =
      if hasOpen c.transactions e.vxid then .error (.duplicateBegin (.session e.vxid))
      else .ok { c with transactions := ⟨e.vxid, e.time, .opened, []⟩ :: c.transactions } := by
  rw [apply, h]
  rfl

theorem apply_close {rolledBack : Bool} (h : e.kind = .close rolledBack) :
    c.apply e =
      if hasOpen c.transactions e.vxid then
        .ok { c with
          transactions :=
            updateFirst e.vxid (fun t => { t with state := .closed e.time rolledBack })
              c.transactions }
      else .error (.endWithoutBegin (.session e.vxid)) := by
  rw [apply, h]
  rfl

theorem apply_statement {sql : String} {params : List Value} (h : e.kind = .statement sql params) :
    c.apply e = .ok { c with
      interner := (c.interner.intern sql).1
      transactions :=
        if hasOpen c.transactions e.vxid then
          updateFirst e.vxid
            (fun t => { t with calls := ⟨e.time, idOf c.texts sql, params⟩ :: t.calls })
            c.transactions
        else ⟨e.vxid, e.time, .implicit, [⟨e.time, idOf c.texts sql, params⟩]⟩ ::
          c.transactions } := by
  rw [apply, h]
  dsimp only
  rw [intern_eq]
  cases hopen : hasOpen c.transactions e.vxid with
  | true => exact congrArg _ (if_pos hopen)
  | false => exact congrArg _ (if_neg (Bool.eq_false_iff.mp hopen))

end

/-! One conversion of all rows and one of the rows of the chosen sessions. -/

/-- What has been gathered in one conversion of the chosen sessions has been gathered in another,
which has no other texts. -/
structure Shares (p : String → Bool) (c d : Conversion) : Prop where
  clock : c.clock.Faithful
  clock' : d.clock.Faithful
  same : List.Forall₂ (SameTransaction c.texts d.texts) (ofSessions p c.transactions)
    d.transactions
  subset : d.texts.toList ⊆ c.texts.toList
  nodup : d.texts.toList.Nodup

section

variable {p : String → Bool} {c c' d d' : Conversion} {e : Event}

theorem shares_initial (p : String → Bool) : Shares p initial initial :=
  ⟨Clock.faithful_new, Clock.faithful_new, .nil, List.Subset.refl _, .nil⟩

theorem Shares.hasOpen (h : Shares p c d) (hp : p e.vxid = true) :
    Conversion.hasOpen d.transactions e.vxid = Conversion.hasOpen c.transactions e.vxid := by
  rw [← hasOpen_of_same h.same, hasOpen_ofSessions hp]

theorem Shares.apply (h : Shares p c d) (hp : p e.vxid = true) (happly : c.apply e = .ok c') :
    ∃ d', d.apply e = .ok d' ∧ Shares p c' d' := by
  have hopen := h.hasOpen hp
  cases hkind : e.kind with
  | begin =>
    rw [apply_begin hkind] at happly
    rw [apply_begin hkind, hopen]
    split at happly
    · cases happly
    · rename_i hclosed
      cases happly
      refine ⟨_, if_neg hclosed, h.clock, h.clock', ?_, h.subset, h.nodup⟩
      rw [ofSessions_cons_of_pos hp]
      exact .cons ⟨rfl, rfl, rfl, .nil⟩ h.same
  | close rolledBack =>
    rw [apply_close hkind] at happly
    rw [apply_close hkind, hopen]
    split at happly
    · rename_i hopened
      cases happly
      refine ⟨_, if_pos hopened, h.clock, h.clock', ?_, h.subset, h.nodup⟩
      rw [ofSessions_updateFirst hp]
      · exact same_updateFirst (fun t u htu => ⟨htu.vxid, htu.time, rfl, htu.calls⟩) h.same
      · exact fun _ => rfl
    · cases happly
  | statement sql params =>
    rw [apply_statement hkind] at happly
    rw [apply_statement hkind, hopen]
    cases happly
    have hcall := sameCall_idOf c.texts d.texts sql params e.time
    have hsame := h.same.imp fun _ _ htu =>
      htu.mono (prefix_withText c.texts sql) (prefix_withText d.texts sql)
    have hsubset := subset_withText h.subset sql
    have hnodup := nodup_withText h.nodup sql
    rw [← texts_intern, ← texts_intern] at hcall hsame hsubset
    rw [← texts_intern] at hnodup
    refine ⟨_, rfl, h.clock, h.clock', ?_, hsubset, hnodup⟩
    dsimp only
    split
    · rw [ofSessions_updateFirst hp]
      · exact same_updateFirst
          (fun t u htu => ⟨htu.vxid, htu.time, htu.state, .cons hcall htu.calls⟩) hsame
      · exact fun _ => rfl
    · rw [ofSessions_cons_of_pos hp]
      exact .cons ⟨rfl, rfl, rfl, .cons hcall .nil⟩ hsame

theorem Shares.apply_of_not (h : Shares p c d) (hp : p e.vxid = false)
    (happly : c.apply e = .ok c') : Shares p c' d := by
  cases hkind : e.kind with
  | begin =>
    rw [apply_begin hkind] at happly
    split at happly
    · cases happly
    · cases happly
      refine ⟨h.clock, h.clock', ?_, h.subset, h.nodup⟩
      rw [ofSessions_cons_of_neg hp]
      exact h.same
  | close rolledBack =>
    rw [apply_close hkind] at happly
    split at happly
    · cases happly
      refine ⟨h.clock, h.clock', ?_, h.subset, h.nodup⟩
      rw [ofSessions_updateFirst_of_not hp]
      · exact h.same
      · exact fun _ => rfl
    · cases happly
  | statement sql params =>
    rw [apply_statement hkind] at happly
    cases happly
    have hgrows := prefix_withText c.texts sql
    rw [← texts_intern] at hgrows
    have hsame := h.same.imp fun _ _ htu => htu.mono hgrows List.prefix_rfl
    refine ⟨h.clock, h.clock', ?_, List.Subset.trans h.subset hgrows.subset, h.nodup⟩
    dsimp only
    split
    · rw [ofSessions_updateFirst_of_not hp]
      · exact hsame
      · exact fun _ => rfl
    · rw [ofSessions_cons_of_neg hp]
      exact hsame

/-- An event of a chosen session that can follow in its session can follow among all. -/
theorem Shares.exists_apply (h : Shares p c d) (hp : p e.vxid = true)
    (happly : d.apply e = .ok d') : ∃ c', c.apply e = .ok c' := by
  have hopen := h.hasOpen hp
  cases hkind : e.kind with
  | begin =>
    rw [apply_begin hkind, hopen] at happly
    rw [apply_begin hkind]
    split at happly
    · cases happly
    · rename_i hclosed
      exact ⟨_, if_neg hclosed⟩
  | close rolledBack =>
    rw [apply_close hkind, hopen] at happly
    rw [apply_close hkind]
    split at happly
    · rename_i hopened
      exact ⟨_, if_pos hopened⟩
    · cases happly
  | statement sql params => exact ⟨_, apply_statement hkind⟩

end

/-- Rows that are the same but for their lines. -/
def SameRows (rows rows' : List Row) : Prop := rows.map Row.fields = rows'.map Row.fields

section

variable {p : String → Bool} {c c' d d' : Conversion} {row row' : Row} {rows part : List Row}

/-- What is shared does not depend on what the clocks keep, nor on how many rows there were. -/
theorem Shares.with_clocks (h : Shares p c d) {clock clock' : Clock} (hclock : clock.Faithful)
    (hclock' : clock'.Faithful) (rows skipped rows' skipped' : Nat) :
    Shares p { c with clock := clock, rows := rows, skipped := skipped }
      { d with clock := clock', rows := rows', skipped := skipped' } :=
  ⟨hclock, hclock', h.same, h.subset, h.nodup⟩

theorem Shares.step (h : Shares p c d) (hp : p row.vxid = true) (hfields : row.fields = row'.fields)
    (hstep : c.step row = .ok c') : ∃ d', d.step row' = .ok d' ∧ Shares p c' d' := by
  obtain ⟨clock, hclock, hc⟩ := step_eq h.clock row
  obtain ⟨clock', hclock', hd⟩ := step_eq h.clock' row'
  rw [hc] at hstep
  rw [hd]
  cases hevent : eventOfRow row with
  | error fault =>
    rw [hevent] at hstep
    cases hstep
  | ok event =>
    rw [hevent] at hstep
    rw [eventOfRow_of_fields hfields hevent]
    cases event with
    | none =>
      cases hstep
      exact ⟨_, rfl, h.with_clocks hclock hclock' _ _ _ _⟩
    | some e =>
      rw [← vxid_of_eventOfRow hevent] at hp
      exact (h.with_clocks hclock hclock' _ _ _ _).apply hp hstep

theorem Shares.step_of_not (h : Shares p c d) (hp : p row.vxid = false)
    (hstep : c.step row = .ok c') : Shares p c' d := by
  obtain ⟨clock, hclock, hc⟩ := step_eq h.clock row
  rw [hc] at hstep
  cases hevent : eventOfRow row with
  | error fault =>
    rw [hevent] at hstep
    cases hstep
  | ok event =>
    rw [hevent] at hstep
    cases event with
    | none =>
      cases hstep
      exact h.with_clocks hclock h.clock' _ _ d.rows d.skipped
    | some e =>
      rw [← vxid_of_eventOfRow hevent] at hp
      exact (h.with_clocks hclock h.clock' _ _ d.rows d.skipped).apply_of_not hp hstep

theorem Shares.exists_step (h : Shares p c d) (hp : p row.vxid = true)
    (hfields : row.fields = row'.fields) (hstep : d.step row' = .ok d') :
    ∃ c', c.step row = .ok c' := by
  obtain ⟨clock, hclock, hc⟩ := step_eq h.clock row
  obtain ⟨clock', hclock', hd⟩ := step_eq h.clock' row'
  rw [hd] at hstep
  rw [hc]
  cases hevent : eventOfRow row' with
  | error fault =>
    rw [hevent] at hstep
    cases hstep
  | ok event =>
    rw [hevent] at hstep
    have hevent' := eventOfRow_of_fields hfields.symm hevent
    rw [hevent']
    cases event with
    | none => exact ⟨_, rfl⟩
    | some e =>
      rw [← vxid_of_eventOfRow hevent'] at hp
      exact (h.with_clocks hclock hclock' _ _ _ _).exists_apply hp hstep

/-- The rows of the chosen sessions are gathered alone as they are among all rows. -/
theorem Shares.run (h : Shares p c d) (hpart : SameRows (rows.filter fun row => p row.vxid) part)
    (hrows : rows.foldlM Conversion.step c = .ok c') :
    ∃ d', part.foldlM Conversion.step d = .ok d' ∧ Shares p c' d' := by
  induction rows generalizing c d part with
  | nil =>
    cases hrows
    obtain rfl : part = [] := List.map_eq_nil_iff.mp hpart.symm
    exact ⟨d, rfl, h⟩
  | cons row rows ih =>
    rw [List.foldlM_cons] at hrows
    obtain ⟨c₁, hstep, hrows⟩ := bind_eq_ok_iff.mp hrows
    cases hp : p row.vxid with
    | false =>
      simp only [List.filter_cons, hp, Bool.false_eq_true, if_false] at hpart
      exact ih (h.step_of_not hp hstep) hpart hrows
    | true =>
      simp only [List.filter_cons, hp, if_true, SameRows, List.map_cons] at hpart
      obtain ⟨row', part', rfl, hfields, hpart'⟩ := List.map_eq_cons_iff.mp hpart.symm
      obtain ⟨d₁, hstep', hshares⟩ := h.step hp hfields.symm hstep
      obtain ⟨d', hd', h'⟩ := ih hshares hpart'.symm hrows
      refine ⟨d', ?_, h'⟩
      rw [List.foldlM_cons, hstep']
      exact hd'

theorem ofRows_append_eq_ok_iff {more : List Row} :
    ofRows (rows ++ more) = .ok d ↔
      ∃ c, ofRows rows = .ok c ∧ more.foldlM Conversion.step c = .ok d := by
  unfold ofRows
  rw [List.foldlM_append, bind_eq_ok_iff]

theorem SameRows.exists_append {more : List Row} (h : SameRows (rows ++ more) part) :
    ∃ front back, part = front ++ back ∧ SameRows rows front ∧ SameRows more back := by
  rw [SameRows, List.map_append] at h
  obtain ⟨front, back, rfl, hfront, hback⟩ := List.map_eq_append_iff.mp h.symm
  exact ⟨front, back, rfl, hfront.symm, hback.symm⟩

/-- Rows can be gathered if those of each session can. -/
theorem exists_ofRows {rows : List Row} (h : ∀ vxid, ∃ part d,
      SameRows (rows.filter fun row => row.vxid = vxid) part ∧ ofRows part = .ok d) :
    ∃ c, ofRows rows = .ok c := by
  -- The induction takes rows off the end, where what has been gathered before is shared with the
  -- session of the last row.
  induction rows using List.reverseRecOn with
  | nil => exact ⟨initial, rfl⟩
  | append_singleton rows row ih =>
    have hsplit : ∀ vxid, ∃ front back d d',
        SameRows (rows.filter fun row => row.vxid = vxid) front ∧
          SameRows ([row].filter fun row => row.vxid = vxid) back ∧ ofRows front = .ok d ∧
            back.foldlM step d = .ok d' := by
      intro vxid
      obtain ⟨part, d', hpart, hd'⟩ := h vxid
      rw [List.filter_append] at hpart
      obtain ⟨front, back, rfl, hfront, hback⟩ := hpart.exists_append
      obtain ⟨d, hd, hd'⟩ := ofRows_append_eq_ok_iff.mp hd'
      exact ⟨front, back, d, d', hfront, hback, hd, hd'⟩
    obtain ⟨c, hc⟩ := ih fun vxid => by
      obtain ⟨front, -, d, -, hfront, -, hd, -⟩ := hsplit vxid
      exact ⟨front, d, hfront, hd⟩
    obtain ⟨front, back, d, d', hfront, hback, hd, hd'⟩ := hsplit row.vxid
    obtain ⟨d₁, hd₁, hshares⟩ :=
      (shares_initial fun vxid => vxid = row.vxid).run hfront hc
    obtain rfl : d = d₁ := Except.ok.inj (hd.symm.trans hd₁)
    simp only [List.filter_cons, decide_true, if_true, List.filter_nil] at hback
    obtain ⟨row', rest, rfl, hfields, hrest⟩ := List.map_eq_cons_iff.mp hback.symm
    obtain rfl : rest = [] := List.map_eq_nil_iff.mp hrest
    rw [List.foldlM_cons] at hd'
    obtain ⟨d₂, hstep, -⟩ := bind_eq_ok_iff.mp hd'
    obtain ⟨c', hc'⟩ := hshares.exists_step (decide_eq_true rfl) hfields.symm hstep
    refine ⟨c', ofRows_append_eq_ok_iff.mpr ⟨c, hc, ?_⟩⟩
    rw [List.foldlM_cons, hc']
    rfl

end

section

variable {p : String → Bool} {c d : Conversion}

theorem Shares.size_le (h : Shares p c d) : d.texts.size ≤ c.texts.size := by
  rw [← Array.length_toList, ← Array.length_toList]
  exact (List.subperm_of_subset h.nodup h.subset).length_le

theorem Shares.filter (h : Shares p c d) {q : LoggedTransaction → Bool}
    (hq : ∀ t u, SameTransaction c.texts d.texts t u → q t = q u) :
    List.Forall₂ (SameTransaction c.texts d.texts) (ofSessions p (c.transactions.reverse.filter q))
      (d.transactions.reverse.filter q) := by
  have hreverse := List.rel_reverse h.same
  have hkept : ∀ t u, SameTransaction c.texts d.texts t u → (q t = true ↔ q u = true) := by
    intro t u htu
    rw [hq t u htu]
  have hfilter := List.rel_filter (p := q) (q := q) (fun t u htu => hkept t u htu) hreverse
  rwa [ofSessions, ← List.filter_reverse, List.filter_comm] at hfilter

end

/-- The chosen sessions alone come to their transactions among all, and their trace has the records
of these with the same texts. Sessions that can be gathered alone can be gathered together, whatever
the order of their rows. -/
theorem ofRows_filter_sessions (rows : List Row) :
    (∀ c, ofRows rows = .ok c → ∀ (chosen : Set String) [DecidablePred (· ∈ chosen)]
        (part : List Row), SameRows (rows.filter fun row => row.vxid ∈ chosen) part →
      ∃ d, ofRows part = .ok d ∧
        List.Forall₂ (SameTransaction c.texts d.texts)
          (c.written.filter fun t => t.vxid ∈ chosen) d.written ∧
        List.Forall₂ (SameTransaction c.texts d.texts)
          (c.dropped.filter fun t => t.vxid ∈ chosen) d.dropped ∧
        c.trace = traceBytes c.written c.entries ∧ d.trace = traceBytes d.written d.entries ∧
        (c.texts.size ≤ UInt32.size →
          (c.written.filter fun t => t.vxid ∈ chosen).map (withTexts c.texts) =
              d.written.map (withTexts d.texts) ∧
            (c.dropped.filter fun t => t.vxid ∈ chosen).map (withTexts c.texts) =
              d.dropped.map (withTexts d.texts) ∧
            (recordsOf (c.written.filter fun t => t.vxid ∈ chosen)).map (resolved c.texts) =
              d.records.map (resolved d.texts))) ∧
      ∀ sessions : String → List Row, (∀ vxid, ∃ d, ofRows (sessions vxid) = .ok d) →
        (∀ vxid, SameRows (rows.filter fun row => row.vxid = vxid) (sessions vxid)) →
          ∃ c, ofRows rows = .ok c := by
  constructor
  · intro c hc chosen _ part hpart
    obtain ⟨d, hd, hshares⟩ := (shares_initial fun vxid => vxid ∈ chosen).run hpart hc
    have hwritten : List.Forall₂ (SameTransaction c.texts d.texts)
        (c.written.filter fun t => t.vxid ∈ chosen) d.written :=
      hshares.filter fun t u htu => by rw [htu.isOpen]
    have hdropped : List.Forall₂ (SameTransaction c.texts d.texts)
        (c.dropped.filter fun t => t.vxid ∈ chosen) d.dropped :=
      hshares.filter fun t u htu => htu.isOpen
    refine ⟨d, hd, hwritten, hdropped, trace_eq_traceBytes c, trace_eq_traceBytes d,
      fun hsize => ?_⟩
    have hsize' : d.texts.size ≤ UInt32.size := Nat.le_trans hshares.size_le hsize
    have htexts : ∀ t u, SameTransaction c.texts d.texts t u →
        withTexts c.texts t = withTexts d.texts u := fun t u htu => htu.withTexts_eq hsize hsize'
    refine ⟨map_eq_of_forall₂ htexts hwritten, map_eq_of_forall₂ htexts hdropped, ?_⟩
    rw [records_eq_written]
    exact resolved_recordsOf hwritten hsize hsize'
  · intro sessions halone hsessions
    refine exists_ofRows fun vxid => ?_
    obtain ⟨d, hd⟩ := halone vxid
    exact ⟨sessions vxid, d, hsessions vxid, hd⟩

/-- The rows of a transaction that is rolled back and, between them, a row of another session. -/
def crossedRows : List Row :=
  let row (time vxid message : String) : Row :=
    ⟨1, [time, "", "", "", "", "", "", "", "", vxid, "", "", "", message, ""], Nat.le_refl _⟩
  [row "2023-11-12 13:06:58.721 UTC" "4/7" "statement: BEGIN",
    row "2023-11-12 13:06:58.722 UTC" "5/1" "statement: SELECT 2",
    row "2023-11-12 13:06:58.723 UTC" "4/7" "statement: SELECT 1",
    row "2023-11-12 13:06:58.724 UTC" "4/7" "statement: ROLLBACK"]

/-- The text of the other session has an id before that of the chosen one. -/
theorem ofRows_filter_crossed :
    ∃ c d, ofRows crossedRows = .ok c ∧
      ofRows (crossedRows.filter fun row => row.vxid ∈ ({"4/7"} : Set String)) = .ok d ∧
        c.texts = #["SELECT 2", "SELECT 1"] ∧
          d.written.map (withTexts d.texts) =
            [⟨"4/7", 1699794418721000000, .closed 1699794418724000000 true,
              [⟨"SELECT 1", [], 1699794418723000000⟩]⟩] ∧
          d.records.map (resolved d.texts) =
            [⟨1699794418721000000, .begin, []⟩,
              ⟨1699794418723000000, .inline "SELECT 1", []⟩,
              ⟨1699794418724000000, .rollback, []⟩] := by
  have hall : (ofRows crossedRows).toOption.map (fun c =>
      let chosen := c.written.filter fun t => t.vxid ∈ ({"4/7"} : Set String)
      (c.texts, chosen.map (withTexts c.texts), (recordsOf chosen).map (resolved c.texts))) =
        some (#["SELECT 2", "SELECT 1"],
          [⟨"4/7", 1699794418721000000, .closed 1699794418724000000 true,
            [⟨"SELECT 1", [], 1699794418723000000⟩]⟩],
          [⟨1699794418721000000, .begin, []⟩, ⟨1699794418723000000, .inline "SELECT 1", []⟩,
            ⟨1699794418724000000, .rollback, []⟩]) := by
    decide +kernel
  obtain ⟨c, hc, hchosen⟩ := Option.map_eq_some_iff.mp hall
  obtain ⟨htexts, hchosen⟩ := Prod.mk.inj hchosen
  obtain ⟨hwritten, hrecords⟩ := Prod.mk.inj hchosen
  rw [toOption_eq_some_iff] at hc
  obtain ⟨d, hd, -, -, -, -, hsame⟩ := (ofRows_filter_sessions crossedRows).1 c hc {"4/7"} _ rfl
  obtain ⟨hwritten', -, hrecords'⟩ := hsame (by rw [htexts]; decide)
  exact ⟨c, d, hc, hd, htexts, hwritten'.symm.trans hwritten, hrecords'.symm.trans hrecords⟩

end WorkloadReplay.Conversion
