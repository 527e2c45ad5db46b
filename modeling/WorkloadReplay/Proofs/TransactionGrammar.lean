import WorkloadReplay.Trace.Loading

/-!
# Transactions in a sequence of records

The records of a trace are a sequence of statements outside of transactions and of blocks from a
`BEGIN` to a `COMMIT` or `ROLLBACK`, with statements in between. Loading gathers the transactions of
exactly these sequences.
-/

namespace WorkloadReplay.Trace

def Record.text? (r : Record) : Option String :=
  match r.tag with
  | .inline sql => some sql
  | _ => none

def Record.reference? (r : Record) : Option UInt32 :=
  match r.tag with
  | .id id => some id
  | _ => none

def inlineTexts (records : List Record) : List String := records.filterMap Record.text?

def references (records : List Record) : List UInt32 := records.filterMap Record.reference?

/-- The call that a record stands for, if it is of a statement; `n` inline statements come before
it. -/
def Record.call? (n : Nat) (r : Record) : Option Call :=
  match r.tag with
  | .id id => some (.ofStatement (.interned id) r.params r.time)
  | .inline _ => some (.ofStatement (.inline (UInt32.ofNat n)) r.params r.time)
  | _ => none

/-- Records of statements and their calls; `n` inline statements come before them. -/
inductive Calls : Nat → List Record → List Call → Prop where
  | nil (n : Nat) : Calls n [] []
  | cons {n : Nat} {r : Record} {c : Call} {rs : List Record} {cs : List Call}
      (hcall : r.call? n = some c) (hs : Calls (n + (inlineTexts [r]).length) rs cs) :
      Calls n (r :: rs) (c :: cs)

def Record.Closes (r : Record) (abort : Bool) : Prop :=
  r.tag = if abort then .rollback else .commit

/-- Records and their transactions; `n` inline statements come before them. -/
inductive Parses : Nat → List Record → List Transaction → Prop where
  | nil (n : Nat) : Parses n [] []
  | implicit {n : Nat} {r : Record} {c : Call} {rs : List Record} {ts : List Transaction}
      (hcall : r.call? n = some c) (hs : Parses (n + (inlineTexts [r]).length) rs ts) :
      Parses n (r :: rs) (.implicit c :: ts)
  | explicit {n : Nat} {b e : Record} {body rs : List Record} {cs : List Call} {abort : Bool}
      {ts : List Transaction} (hbegin : b.tag = .begin) (hcalls : Calls n body cs)
      (hend : e.Closes abort) (hs : Parses (n + (inlineTexts body).length) rs ts) :
      Parses n (b :: (body ++ e :: rs))
        (⟨.explicit (some abort), b.time, cs ++ [.ofEnd e.time]⟩ :: ts)

theorem inlineTexts_cons (r : Record) (rs : List Record) :
    inlineTexts (r :: rs) = r.text?.toList ++ inlineTexts rs := by
  unfold inlineTexts
  cases h : r.text? with
  | none => rw [List.filterMap_cons_none h]; rfl
  | some sql => rw [List.filterMap_cons_some h]; rfl

theorem references_cons (r : Record) (rs : List Record) :
    references (r :: rs) = r.reference?.toList ++ references rs := by
  unfold references
  cases h : r.reference? with
  | none => rw [List.filterMap_cons_none h]; rfl
  | some sql => rw [List.filterMap_cons_some h]; rfl

theorem inlineTexts_append (rs ss : List Record) :
    inlineTexts (rs ++ ss) = inlineTexts rs ++ inlineTexts ss := List.filterMap_append

theorem length_inlineTexts_cons (r : Record) (rs : List Record) :
    (inlineTexts (r :: rs)).length = (inlineTexts [r]).length + (inlineTexts rs).length := by
  rw [← List.length_append, ← inlineTexts_append, List.singleton_append]

theorem inlineTexts_singleton_of_isBoundary {r : Record} (h : r.tag.isBoundary = true) :
    inlineTexts [r] = [] := by
  cases htag : r.tag with
  | begin => simp [inlineTexts, Record.text?, htag]
  | commit => simp [inlineTexts, Record.text?, htag]
  | rollback => simp [inlineTexts, Record.text?, htag]
  | id id => simp [htag, Tag.isBoundary] at h
  | inline sql => simp [htag, Tag.isBoundary] at h

theorem Record.Closes.isBoundary {r : Record} {abort : Bool} (h : r.Closes abort) :
    r.tag.isBoundary = true := by
  cases abort with
  | true => rw [show r.tag = .rollback from h]; rfl
  | false => rw [show r.tag = .commit from h]; rfl

theorem Record.kinds (n : Nat) (r : Record) :
    r.tag = .begin ∨ (∃ abort, r.Closes abort) ∨ ∃ c, r.call? n = some c := by
  cases htag : r.tag with
  | begin => exact .inl rfl
  | commit => exact .inr (.inl ⟨false, htag⟩)
  | rollback => exact .inr (.inl ⟨true, htag⟩)
  | id id => exact .inr (.inr ⟨_, by rw [Record.call?, htag]⟩)
  | inline sql => exact .inr (.inr ⟨_, by rw [Record.call?, htag]⟩)

namespace Loading

/-- The number of inline statements so far. -/
def inlines (s : Loading) : Nat := s.statements.inline.size

def note (s : Loading) (r : Record) : Loading :=
  { s with
    statements := ⟨s.statements.interned, s.statements.inline ++ r.text?.toList.toArray⟩
    referenced := r.reference?.toList ++ s.referenced
    records := s.records + 1 }

theorem step_begin {s : Loading} {r : Record} (h : r.tag = .begin) :
    s.step r =
      if s.opened.isSome then .error (.duplicateBegin (.record (s.records + 1)))
      else .ok { s.note r with opened := some ⟨r.time, []⟩ } := by
  simp [step, note, Record.text?, Record.reference?, h]

theorem step_closes {s : Loading} {r : Record} {abort : Bool} (h : r.Closes abort) :
    s.step r = (s.note r).close r.time abort := by
  cases abort with
  | false =>
    have htag : r.tag = .commit := h
    simp [step, note, Record.text?, Record.reference?, htag]
  | true =>
    have htag : r.tag = .rollback := h
    simp [step, note, Record.text?, Record.reference?, htag]

theorem step_call {s : Loading} {r : Record} {c : Call} (h : r.call? s.inlines = some c) :
    s.step r = .ok ((s.note r).call c) := by
  unfold Record.call? at h
  split at h
  · rename_i id htag
    cases h
    simp [step, note, Record.text?, Record.reference?, htag]
  · rename_i sql htag
    cases h
    simp [step, note, Record.text?, Record.reference?, htag, StatementTable.push, inlines]
  · cases h

theorem call_of_some {s : Loading} {t : OpenTransaction} (h : s.opened = some t) (c : Call) :
    s.call c = { s with opened := some ⟨t.time, c :: t.calls⟩ } := by
  simp only [call, h]

theorem call_of_none {s : Loading} (h : s.opened = none) (c : Call) :
    s.call c = { s with transactions := .implicit c :: s.transactions } := by
  simp only [call, h]

inductive Steps (s : Loading) (r : Record) : Loading → Prop where
  | begin (htag : r.tag = .begin) (hopen : s.opened = none) :
      Steps s r { s.note r with opened := some ⟨r.time, []⟩ }
  | close {abort : Bool} {t : OpenTransaction} (hend : r.Closes abort) (hopen : s.opened = some t) :
      Steps s r
        { s.note r with opened := none, transactions := t.close r.time abort :: s.transactions }
  | call {c : Call} (hcall : r.call? s.inlines = some c) : Steps s r ((s.note r).call c)

theorem step_eq_ok_iff {s s' : Loading} {r : Record} : s.step r = .ok s' ↔ Steps s r s' := by
  constructor
  · intro h
    rcases r.kinds s.inlines with hbegin | ⟨abort, hend⟩ | ⟨c, hcall⟩
    · rw [step_begin hbegin] at h
      split at h
      · cases h
      · rename_i hopen
        cases h
        exact .begin hbegin (by simpa using hopen)
    · rw [step_closes hend] at h
      unfold close at h
      split at h
      · cases h
      · rename_i t hopen
        cases h
        exact .close hend hopen
    · rw [step_call hcall] at h
      cases h
      exact .call hcall
  · intro h
    cases h with
    | begin htag hopen => rw [step_begin htag, hopen]; rfl
    | close hend hopen =>
      rw [step_closes hend]
      have hnote : (s.note r).opened = some _ := hopen
      simp only [close, hnote]
      rfl
    | call hcall => exact step_call hcall

inductive Runs : Loading → List Record → Loading → Prop where
  | nil (s : Loading) : Runs s [] s
  | cons {s t u : Loading} {r : Record} {rs : List Record} (h : s.step r = .ok t)
      (hs : Runs t rs u) : Runs s (r :: rs) u

theorem Runs.append {s t u : Loading} {rs ss : List Record} (h : Runs s rs t) (h' : Runs t ss u) :
    Runs s (rs ++ ss) u := by
  induction h with
  | nil => exact h'
  | cons hstep _ ih => exact .cons hstep (ih h')

theorem Steps.statements {s s' : Loading} {r : Record} (h : Steps s r s') :
    s'.statements = (s.note r).statements := by
  cases h with
  | begin => rfl
  | close => rfl
  | call =>
    unfold Loading.call
    split <;> rfl

theorem Steps.referenced {s s' : Loading} {r : Record} (h : Steps s r s') :
    s'.referenced = (s.note r).referenced := by
  cases h with
  | begin => rfl
  | close => rfl
  | call =>
    unfold Loading.call
    split <;> rfl

theorem Runs.statements {s u : Loading} {rs : List Record} (h : Runs s rs u) :
    u.statements =
      ⟨s.statements.interned, s.statements.inline ++ (inlineTexts rs).toArray⟩ := by
  induction h with
  | nil => simp [inlineTexts]
  | @cons s t u r rs hstep _ ih =>
    rw [ih, (step_eq_ok_iff.mp hstep).statements, inlineTexts_cons]
    cases hr : r.text? with
    | none => simp [note, hr]
    | some sql => simp [note, hr]

theorem Runs.referenced {s u : Loading} {rs : List Record} (h : Runs s rs u) :
    u.referenced = (references rs).reverse ++ s.referenced := by
  induction h with
  | nil => rfl
  | @cons s t u r rs hstep _ ih =>
    rw [ih, (step_eq_ok_iff.mp hstep).referenced, references_cons, List.reverse_append,
      List.append_assoc]
    cases hr : r.reference? with
    | none => simp [note, hr]
    | some id => simp [note, hr]

theorem Runs.inlines {s u : Loading} {rs : List Record} (h : Runs s rs u) :
    u.inlines = s.inlines + (inlineTexts rs).length := by
  simp [Loading.inlines, h.statements]

theorem Runs.unique {s u u' : Loading} {rs : List Record} (h : Runs s rs u) (h' : Runs s rs u') :
    u = u' := by
  induction h with
  | nil =>
    cases h'
    rfl
  | cons hstep _ ih =>
    cases h' with
    | cons hstep' hs' =>
      cases hstep.symm.trans hstep'
      exact ih hs'

theorem runs_singleton {s t : Loading} {r : Record} (h : s.step r = .ok t) : Runs s [r] t :=
  .cons h (.nil t)

theorem exists_runs_of_calls {n : Nat} {rs : List Record} {cs : List Call} (h : Calls n rs cs)
    {s : Loading} {t : OpenTransaction} (hn : s.inlines = n) (hopen : s.opened = some t) :
    ∃ u, Runs s rs u ∧ u.opened = some ⟨t.time, cs.reverse ++ t.calls⟩ ∧
      u.transactions = s.transactions := by
  induction h generalizing s t with
  | nil n => exact ⟨s, .nil s, hopen, rfl⟩
  | @cons n r c rs cs hcall _ ih =>
    subst hn
    have hstep := step_call hcall
    rw [call_of_some (s := s.note r) hopen] at hstep
    obtain ⟨u, hruns, hu, htransactions⟩ := ih (runs_singleton hstep).inlines rfl
    refine ⟨u, .cons hstep hruns, ?_, htransactions⟩
    rw [hu]
    simp

theorem exists_runs_of_parses {n : Nat} {rs : List Record} {ts : List Transaction}
    (h : Parses n rs ts) {s : Loading} (hn : s.inlines = n) (hopen : s.opened = none) :
    ∃ u, Runs s rs u ∧ u.opened = none ∧ u.transactions = ts.reverse ++ s.transactions := by
  induction h generalizing s with
  | nil n => exact ⟨s, .nil s, hopen, rfl⟩
  | @implicit n r c rs ts hcall _ ih =>
    subst hn
    have hstep := step_call hcall
    rw [call_of_none (s := s.note r) hopen] at hstep
    obtain ⟨u, hruns, hu, htransactions⟩ := ih (runs_singleton hstep).inlines hopen
    refine ⟨u, .cons hstep hruns, hu, ?_⟩
    rw [htransactions]
    simp [note]
  | @explicit n b e body rs cs abort ts hbegin hcalls hend _ ih =>
    subst hn
    have hstart := step_eq_ok_iff.mpr (.begin hbegin hopen)
    have hstartInlines := (runs_singleton hstart).inlines
    rw [inlineTexts_singleton_of_isBoundary (by rw [hbegin]; rfl)] at hstartInlines
    obtain ⟨v, hbody, hv, hvTransactions⟩ := exists_runs_of_calls hcalls hstartInlines
      (t := ⟨b.time, []⟩) rfl
    have hstop := step_eq_ok_iff.mpr (.close hend hv)
    have hstopInlines := (runs_singleton hstop).inlines
    rw [inlineTexts_singleton_of_isBoundary hend.isBoundary, hbody.inlines, hstartInlines]
      at hstopInlines
    obtain ⟨u, hruns, hu, htransactions⟩ := ih hstopInlines rfl
    refine ⟨u, .cons hstart (hbody.append (.cons hstop hruns)), hu, ?_⟩
    rw [htransactions, hvTransactions]
    simp [OpenTransaction.close, note]

/-- Records are those of one sequence of transactions only. -/
theorem parses_unique {rs : List Record} {ts ts' : List Transaction} (h : Parses 0 rs ts)
    (h' : Parses 0 rs ts') : ts = ts' := by
  obtain ⟨u, hruns, -, hu⟩ := exists_runs_of_parses h (s := .initial) rfl rfl
  obtain ⟨u', hruns', -, hu'⟩ := exists_runs_of_parses h' (s := .initial) rfl rfl
  rw [hruns.unique hruns', hu'] at hu
  exact List.reverse_inj.mp (List.append_cancel_right hu.symm)

/-- The records complete the transactions in `done` to those in `all`, both with the last one first;
`n` inline statements come before them. -/
def Completes (n : Nat) (done : List Transaction) (rs : List Record) (all : List Transaction) :
    Prop :=
  ∃ ts, Parses n rs ts ∧ all = ts.reverse ++ done

def CompletesOpen (n : Nat) (t : OpenTransaction) (done : List Transaction) (rs : List Record)
    (all : List Transaction) : Prop :=
  ∃ body e rest cs abort ts, rs = body ++ e :: rest ∧ Calls n body cs ∧ e.Closes abort ∧
    Parses (n + (inlineTexts body).length) rest ts ∧
    all = ts.reverse ++
      ⟨.explicit (some abort), t.time, t.calls.reverse ++ cs ++ [.ofEnd e.time]⟩ :: done

section

variable {n : Nat} {t : OpenTransaction} {done all : List Transaction} {r : Record}
  {rs : List Record} {c : Call}

theorem completes_begin (htag : r.tag = .begin)
    (h : CompletesOpen n ⟨r.time, []⟩ done rs all) : Completes n done (r :: rs) all := by
  obtain ⟨body, e, rest, cs, abort, ts, rfl, hcalls, hend, hparses, rfl⟩ := h
  refine ⟨_, .explicit htag hcalls hend hparses, ?_⟩
  simp

theorem completesOpen_close {abort : Bool} (hend : r.Closes abort)
    (h : Completes n (t.close r.time abort :: done) rs all) :
    CompletesOpen n t done (r :: rs) all := by
  obtain ⟨ts, hparses, rfl⟩ := h
  refine ⟨[], r, rs, [], abort, ts, rfl, .nil n, hend, hparses, ?_⟩
  simp [OpenTransaction.close]

theorem completes_call (hcall : r.call? n = some c)
    (h : Completes (n + (inlineTexts [r]).length) (.implicit c :: done) rs all) :
    Completes n done (r :: rs) all := by
  obtain ⟨ts, hparses, rfl⟩ := h
  refine ⟨_, .implicit hcall hparses, ?_⟩
  simp

theorem completesOpen_call (hcall : r.call? n = some c)
    (h : CompletesOpen (n + (inlineTexts [r]).length) ⟨t.time, c :: t.calls⟩ done rs all) :
    CompletesOpen n t done (r :: rs) all := by
  obtain ⟨body, e, rest, cs, abort, ts, rfl, hcalls, hend, hparses, rfl⟩ := h
  refine ⟨r :: body, e, rest, c :: cs, abort, ts, rfl, .cons hcall hcalls, hend, ?_, ?_⟩
  · rwa [length_inlineTexts_cons, ← Nat.add_assoc]
  · simp

end

theorem completes_of_runs {s u : Loading} {rs : List Record} (h : Runs s rs u)
    (hu : u.opened = none) :
    (s.opened = none → Completes s.inlines s.transactions rs u.transactions) ∧
      ∀ t, s.opened = some t → CompletesOpen s.inlines t s.transactions rs u.transactions := by
  -- The open transaction is part of the statement, as its calls come before the record that closes
  -- it.
  induction h with
  | nil s =>
    constructor
    · intro _
      exact ⟨[], .nil _, rfl⟩
    · intro t ht
      rw [hu] at ht
      cases ht
  | @cons s v u r rs hstep hruns ih =>
    obtain ⟨ihNone, ihSome⟩ := ih hu
    have hinlines := (runs_singleton hstep).inlines
    cases step_eq_ok_iff.mp hstep with
    | begin htag hopen =>
      rw [inlineTexts_singleton_of_isBoundary (by rw [htag]; rfl)] at hinlines
      constructor
      · intro _
        have hrest := ihSome ⟨r.time, []⟩ rfl
        rw [hinlines] at hrest
        exact completes_begin htag hrest
      · intro t ht
        rw [hopen] at ht
        cases ht
    | close hend hopen =>
      rw [inlineTexts_singleton_of_isBoundary hend.isBoundary] at hinlines
      constructor
      · intro hnone
        rw [hopen] at hnone
        cases hnone
      · intro t ht
        rw [hopen] at ht
        cases ht
        have hrest := ihNone rfl
        rw [hinlines] at hrest
        exact completesOpen_close hend hrest
    | @call c hcall =>
      constructor
      · intro hopen
        rw [call_of_none (s := s.note r) hopen] at hinlines ihNone
        have hrest := ihNone hopen
        rw [hinlines] at hrest
        exact completes_call hcall hrest
      · intro t hopen
        rw [call_of_some (s := s.note r) hopen] at hinlines ihSome
        have hrest := ihSome _ rfl
        rw [hinlines] at hrest
        exact completesOpen_call hcall hrest

end Loading

end WorkloadReplay.Trace
