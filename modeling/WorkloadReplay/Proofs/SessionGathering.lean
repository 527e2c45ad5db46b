import WorkloadReplay.Proofs.CachedClock
import WorkloadReplay.Proofs.Interning
import WorkloadReplay.Proofs.LogMeaning
import WorkloadReplay.Proofs.LoggedParams

/-!
# Gathering the transactions of sessions

Conversion keeps for every session at most one open transaction. The transactions that it has
gathered, each completed by what is still to come, and those that are still to start are together
the transactions of the log, after every row.
-/

namespace WorkloadReplay.Conversion
open Log

def apply (c : Conversion) (e : Event) : Except Fault Conversion :=
  match e.kind with
  | .begin => c.start e.vxid e.time
  | .close rolledBack => c.close e.vxid e.time rolledBack
  | .statement sql params =>
    .ok ((c.intern sql).1.call e.vxid ⟨e.time, (c.intern sql).2, params⟩)

/-- Adding a row is adding its event. -/
theorem step_eq {c : Conversion} (hc : c.clock.Faithful) (row : Row) :
    ∃ clock, clock.Faithful ∧ c.step row =
      match eventOfRow row with
      | .error fault => .error fault
      | .ok none => .ok { c with rows := c.rows + 1, skipped := c.skipped + 1, clock := clock }
      | .ok (some e) => { c with rows := c.rows + 1, clock := clock }.apply e := by
  unfold step eventOfRow
  dsimp only
  cases sqlOfMessage? row.message with
  | none => exact ⟨c.clock, hc, rfl⟩
  | some sql =>
    obtain ⟨htime, hclock⟩ := Clock.parse_spec hc row.logTime
    refine ⟨_, hclock, ?_⟩
    rw [← htime]
    generalize c.clock.parse row.logTime = x
    obtain ⟨clock, answer⟩ := x
    cases answer with
    | error fault => rfl
    | ok time =>
      simp only [statement, kindOfSql]
      cases classify sql with
      | begin => rfl
      | commit => rfl
      | rollback => rfl
      | statement =>
        simp only
        cases paramsOfDetail row.detail row.line with
        | error fault => rfl
        | ok params => rfl

def hasOpen (ts : List LoggedTransaction) (vxid : String) : Bool := ts.any (·.isOpenFor vxid)

/-- What an event does to the transactions and the texts. -/
inductive Applies (e : Event) (ts : List LoggedTransaction) (texts : Array String) :
    List LoggedTransaction → Array String → Prop where
  | opened (hkind : e.kind = .begin) (hopen : hasOpen ts e.vxid = false) :
      Applies e ts texts (⟨e.vxid, e.time, .opened, []⟩ :: ts) texts
  | closed {rolledBack : Bool} (hkind : e.kind = .close rolledBack)
      (hopen : hasOpen ts e.vxid = true) :
      Applies e ts texts
        (updateFirst e.vxid (fun t => { t with state := .closed e.time rolledBack }) ts) texts
  | called {sql : String} {params : List Value} (hkind : e.kind = .statement sql params)
      (hopen : hasOpen ts e.vxid = true) :
      Applies e ts texts
        (updateFirst e.vxid
          (fun t => { t with calls := ⟨e.time, idOf texts sql, params⟩ :: t.calls }) ts)
        (withText texts sql)
  | alone {sql : String} {params : List Value} (hkind : e.kind = .statement sql params)
      (hopen : hasOpen ts e.vxid = false) :
      Applies e ts texts
        (⟨e.vxid, e.time, .implicit, [⟨e.time, idOf texts sql, params⟩]⟩ :: ts)
        (withText texts sql)

theorem applies_of_apply {c c' : Conversion} {e : Event} (h : c.apply e = .ok c') :
    Applies e c.transactions c.texts c'.transactions c'.texts ∧ c'.clock = c.clock := by
  unfold apply at h
  cases hkind : e.kind with
  | begin =>
    simp only [hkind, start] at h
    split at h
    · cases h
    · rename_i hopen
      cases h
      exact ⟨.opened hkind (Bool.eq_false_iff.mpr hopen), rfl⟩
  | close rolledBack =>
    simp only [hkind, close] at h
    split at h
    · rename_i hopen
      cases h
      exact ⟨.closed hkind hopen, rfl⟩
    · cases h
  | statement sql params =>
    simp only [hkind, intern_eq, call, Except.ok.injEq] at h
    subst h
    split
    · rename_i hopen
      have happlies : Applies e c.transactions c.texts _ (withText c.texts sql) :=
        .called hkind hopen
      rw [← texts_intern] at happlies
      exact ⟨happlies, rfl⟩
    · rename_i hopen
      have happlies : Applies e c.transactions c.texts _ (withText c.texts sql) :=
        .alone hkind (Bool.eq_false_iff.mpr hopen)
      rw [← texts_intern] at happlies
      exact ⟨happlies, rfl⟩

theorem applies_of_step {c c' : Conversion} {row : Row} (hc : c.clock.Faithful)
    (h : c.step row = .ok c') :
    c'.clock.Faithful ∧
      ((eventOfRow? row = none ∧ c'.transactions = c.transactions ∧ c'.texts = c.texts) ∨
        ∃ e, eventOfRow? row = some e ∧
          Applies e c.transactions c.texts c'.transactions c'.texts) := by
  obtain ⟨clock, hclock, hstep⟩ := step_eq hc row
  rw [hstep] at h
  unfold eventOfRow?
  cases hevent : eventOfRow row with
  | error fault =>
    rw [hevent] at h
    cases h
  | ok event =>
    rw [hevent] at h
    cases event with
    | none =>
      cases h
      exact ⟨hclock, .inl ⟨rfl, rfl, rfl⟩⟩
    | some e =>
      obtain ⟨happlies, hsame⟩ := applies_of_apply h
      refine ⟨?_, .inr ⟨e, rfl, happlies⟩⟩
      rw [hsame]
      exact hclock

inductive Gathers : List LoggedTransaction → Array String → List Event →
    List LoggedTransaction → Array String → Prop where
  | nil (ts : List LoggedTransaction) (texts : Array String) : Gathers ts texts [] ts texts
  | cons {ts ts' ts'' : List LoggedTransaction} {texts texts' texts'' : Array String} {e : Event}
      {es : List Event} (h : Applies e ts texts ts' texts')
      (hs : Gathers ts' texts' es ts'' texts'') :
      Gathers ts texts (e :: es) ts'' texts''

theorem gathers_of_rows {c c' : Conversion} {rows : List Row} (hc : c.clock.Faithful)
    (h : rows.foldlM step c = .ok c') :
    Gathers c.transactions c.texts (rows.filterMap eventOfRow?) c'.transactions c'.texts := by
  induction rows generalizing c with
  | nil =>
    cases h
    exact .nil _ _
  | cons row rows ih =>
    rw [List.foldlM_cons] at h
    cases hstep : c.step row with
    | error fault =>
      rw [hstep] at h
      cases h
    | ok d =>
      rw [hstep] at h
      obtain ⟨hd, hrow⟩ := applies_of_step hc hstep
      have hgathers := ih hd h
      rcases hrow with ⟨hnone, ht, hx⟩ | ⟨e, hsome, happlies⟩
      · rw [List.filterMap_cons_none hnone]
        rwa [ht, hx] at hgathers
      · rw [List.filterMap_cons_some hsome]
        exact .cons happlies hgathers

end WorkloadReplay.Conversion
