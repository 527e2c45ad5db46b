import WorkloadReplay.Proofs.SessionIndependence
import Mathlib.Data.List.Perm.Basic

/-!
# What the first rows of a log come to

The first rows of a log can be converted if all of them can. Later rows only finish transactions
that are still open and start others, so what has been written for the first rows is written for all
rows, with the same ids, and whatever else is written was open or had not started.
-/

namespace WorkloadReplay

namespace Log

structure Event.Starts (e : Event) (t : LoggedTransaction) : Prop where
  vxid : t.vxid = e.vxid
  time : t.time = e.time
  kind : (t.state ≠ .implicit ∧ e.kind = .begin) ∨
    (t.state = .implicit ∧ ∃ sql params, e.kind = .statement sql params)

end Log

namespace Conversion
open Log
open scoped List

/-! ## Transactions that go on -/

/-- What can become of a transaction: one that is open can get more calls and be closed, and any
other stays as it is. -/
structure Continues (t u : LoggedTransaction) : Prop where
  vxid : u.vxid = t.vxid
  time : u.time = t.time
  implicit : u.state = .implicit ↔ t.state = .implicit
  calls : t.calls <:+ u.calls
  complete : t.isOpen = false → u = t

theorem Continues.refl (t : LoggedTransaction) : Continues t t :=
  ⟨rfl, rfl, Iff.rfl, List.suffix_rfl, fun _ => rfl⟩

theorem Continues.trans {t u v : LoggedTransaction} (h : Continues t u) (h' : Continues u v) :
    Continues t v where
  vxid := h'.vxid.trans h.vxid
  time := h'.time.trans h.time
  implicit := h'.implicit.trans h.implicit
  calls := h.calls.trans h'.calls
  complete := by
    intro hclosed
    obtain rfl := h.complete hclosed
    exact h'.complete hclosed

/-- What is open has started with an event of its own, so it is no statement alone. -/
theorem Continues.of_open {t u : LoggedTransaction} (hopen : t.isOpen = true)
    (hvxid : u.vxid = t.vxid) (htime : u.time = t.time) (hcalls : t.calls <:+ u.calls)
    (hstate : u.state ≠ .implicit) : Continues t u := by
  refine ⟨hvxid, htime, iff_of_false hstate ?_, hcalls, ?_⟩
  · intro himplicit
    rw [LoggedTransaction.isOpen, himplicit] at hopen
    cases hopen
  · intro hclosed
    rw [hopen] at hclosed
    cases hclosed

theorem continues_updateFirst {ts : List LoggedTransaction} {vxid : String}
    {change : LoggedTransaction → LoggedTransaction}
    (h : ∀ t, t.isOpenFor vxid = true → Continues t (change t)) :
    List.Forall₂ Continues ts (updateFirst vxid change ts) := by
  induction ts with
  | nil => exact .nil
  | cons t ts ih =>
    rw [updateFirst]
    split
    · rename_i hopen
      exact .cons (h t hopen) (List.forall₂_same.mpr fun u _ => .refl u)
    · exact .cons (.refl t) ih

theorem starts_of_continues {e : Event} {t u : LoggedTransaction} (h : e.Starts t)
    (h' : Continues t u) : e.Starts u :=
  ⟨h'.vxid.trans h.vxid, h'.time.trans h.time, by rw [ne_eq, h'.implicit]; exact h.kind⟩

/-! ## Transactions that start -/

/-- Transactions in the order in which they started, and what they are after some events: they have
gone on, and behind them are those that start with some of the events, in order. -/
inductive Grows (ts : List LoggedTransaction) (es : List Event) :
    List LoggedTransaction → Prop where
  | intro {kept begun : List LoggedTransaction} {starts : List Event}
      (hkept : List.Forall₂ Continues ts kept) (hstarts : starts <+ es)
      (hbegun : List.Forall₂ Event.Starts starts begun) : Grows ts es (kept ++ begun)

theorem grows_step {e : Event} {ts ts' : List LoggedTransaction} {texts texts' : Array String}
    (h : Applies e ts texts ts' texts') : Grows ts.reverse [e] ts'.reverse := by
  have hsame : List.Forall₂ Continues ts.reverse ts.reverse :=
    List.forall₂_same.mpr fun t _ => .refl t
  have hkept {ts' : List LoggedTransaction} (h : List.Forall₂ Continues ts ts') :
      Grows ts.reverse [e] ts'.reverse := by
    have hgrows : Grows ts.reverse [e] (ts'.reverse ++ []) :=
      .intro (List.rel_reverse h) (List.nil_sublist [e]) .nil
    rwa [List.append_nil] at hgrows
  cases h with
  | opened hkind =>
    rw [List.reverse_cons]
    exact .intro hsame (List.Sublist.refl [e]) (.cons ⟨rfl, rfl, .inl ⟨nofun, hkind⟩⟩ .nil)
  | closed hkind =>
    refine hkept (continues_updateFirst fun t ht => ?_)
    exact .of_open (isOpenFor_iff.mp ht).1 rfl rfl List.suffix_rfl nofun
  | called hkind =>
    refine hkept (continues_updateFirst fun t ht => ?_)
    refine .of_open (isOpenFor_iff.mp ht).1 rfl rfl (List.suffix_cons _ _) ?_
    rw [(state_of_isOpenFor ht).1]
    exact nofun
  | alone hkind =>
    rw [List.reverse_cons]
    exact .intro hsame (List.Sublist.refl [e]) (.cons ⟨rfl, rfl, .inr ⟨rfl, _, _, hkind⟩⟩ .nil)

theorem forall₂_comp {α β γ : Type} {R : α → β → Prop} {S : β → γ → Prop} {T : α → γ → Prop}
    {as : List α} {bs : List β} {cs : List γ} (h : List.Forall₂ R as bs)
    (h' : List.Forall₂ S bs cs) (hcomp : ∀ a b c, R a b → S b c → T a c) :
    List.Forall₂ T as cs := by
  induction h generalizing cs with
  | nil =>
    cases h'
    exact .nil
  | cons hab _ ih =>
    cases h' with
    | cons hbc hrest => exact .cons (hcomp _ _ _ hab hbc) (ih hrest)

theorem exists_append_of_forall₂ {α β : Type} {R : α → β → Prop} {as as' : List α} {bs : List β}
    (h : List.Forall₂ R (as ++ as') bs) :
    ∃ front back, bs = front ++ back ∧ List.Forall₂ R as front ∧ List.Forall₂ R as' back := by
  have hfront := List.forall₂_take as.length h
  have hback := List.forall₂_drop as.length h
  rw [List.take_left] at hfront
  rw [List.drop_left] at hback
  exact ⟨_, _, (List.take_append_drop as.length bs).symm, hfront, hback⟩

theorem exists_sublist_of_forall₂ {α β : Type} {R : α → β → Prop} {as : List α}
    {bs bs' : List β} (h : List.Forall₂ R as bs) (hbs : bs' <+ bs) :
    ∃ as', as' <+ as ∧ List.Forall₂ R as' bs' := by
  induction hbs generalizing as with
  | slnil => exact ⟨[], List.nil_sublist as, .nil⟩
  | cons b _ ih =>
    cases h with
    | @cons a _ as _ _ hrest =>
      obtain ⟨as', has, hsub⟩ := ih hrest
      exact ⟨as', has.cons a, hsub⟩
  | cons_cons b _ ih =>
    cases h with
    | @cons a _ as _ hab hrest =>
      obtain ⟨as', has, hsub⟩ := ih hrest
      exact ⟨a :: as', has.cons_cons a, .cons hab hsub⟩

theorem Grows.trans {ts us vs : List LoggedTransaction} {es es' : List Event} (h : Grows ts es us)
    (h' : Grows us es' vs) : Grows ts (es ++ es') vs := by
  obtain ⟨hkept, hstarts, hbegun⟩ := h
  obtain ⟨hkept', hstarts', hbegun'⟩ := h'
  obtain ⟨front, back, rfl, hfront, hback⟩ := exists_append_of_forall₂ hkept'
  have hkept₂ : List.Forall₂ Continues ts front :=
    forall₂_comp hkept hfront fun _ _ _ => .trans
  have hbegun₂ : List.Forall₂ Event.Starts _ back :=
    forall₂_comp hbegun hback fun _ _ _ => starts_of_continues
  rw [List.append_assoc]
  exact .intro hkept₂ (hstarts.append hstarts') (List.rel_append hbegun₂ hbegun')

/-- What a sequence of events does to transactions, by their order. -/
theorem grows_run {es : List Event} {ts ts' : List LoggedTransaction} {texts texts' : Array String}
    (h : Gathers ts texts es ts' texts') : Grows ts.reverse es ts'.reverse := by
  induction h with
  | nil ts texts =>
    have hgrows : Grows ts.reverse [] (ts.reverse ++ []) :=
      .intro (List.forall₂_same.mpr fun t _ => .refl t) (List.Sublist.refl []) .nil
    rwa [List.append_nil] at hgrows
  | cons h _ ih => exact (grows_step h).trans ih

/-! ## What is written -/

def complete (ts : List LoggedTransaction) : List LoggedTransaction := ts.filter fun t => !t.isOpen

theorem complete_cons_of_open {t : LoggedTransaction} (h : t.isOpen = true)
    (ts : List LoggedTransaction) : complete (t :: ts) = complete ts :=
  List.filter_cons_of_neg (by simp [h])

theorem complete_cons_of_closed {t : LoggedTransaction} (h : t.isOpen = false)
    (ts : List LoggedTransaction) : complete (t :: ts) = t :: complete ts :=
  List.filter_cons_of_pos (by simp [h])

/-- Of transactions that go on, those that were complete stay, in order. -/
theorem complete_sublist {ts us : List LoggedTransaction} (h : List.Forall₂ Continues ts us) :
    complete ts <+ complete us := by
  induction h with
  | nil => exact List.Sublist.refl []
  | @cons t u ts us htu _ ih =>
    cases hopen : t.isOpen with
    | false =>
      obtain rfl := htu.complete hopen
      rw [complete_cons_of_closed hopen, complete_cons_of_closed hopen]
      exact ih.cons_cons u
    | true =>
      rw [complete_cons_of_open hopen]
      exact ih.trans ((List.sublist_cons_self u us).filter _)

/-- And the others that are complete were open. -/
theorem exists_finished {ts us : List LoggedTransaction} (h : List.Forall₂ Continues ts us) :
    ∃ opened finished, opened <+ ts.filter (·.isOpen) ∧
      List.Forall₂ Continues opened finished ∧ complete us ~ complete ts ++ finished := by
  induction h with
  | nil => exact ⟨[], [], List.nil_sublist _, .nil, .nil⟩
  | @cons t u ts us htu _ ih =>
    obtain ⟨opened, finished, hopened, hfinished, hperm⟩ := ih
    cases hopen : t.isOpen with
    | false =>
      obtain rfl := htu.complete hopen
      rw [complete_cons_of_closed hopen, complete_cons_of_closed hopen]
      refine ⟨opened, finished, ?_, hfinished, hperm.cons u⟩
      rwa [List.filter_cons_of_neg (by simp [hopen])]
    | true =>
      rw [complete_cons_of_open hopen, List.filter_cons_of_pos hopen]
      cases hopen' : u.isOpen with
      | false =>
        rw [complete_cons_of_closed hopen']
        exact ⟨t :: opened, u :: finished, hopened.cons_cons t, .cons htu hfinished,
          (hperm.cons u).trans List.perm_middle.symm⟩
      | true =>
        rw [complete_cons_of_open hopen']
        exact ⟨opened, finished, hopened.cons t, hfinished, hperm⟩

theorem entries_prefix {c d : Conversion} (h : c.texts.toList <+: d.texts.toList) :
    c.entries <+: d.entries := by
  obtain ⟨more, hmore⟩ := h
  rw [entries, entries, ← hmore, List.zipIdx_append, List.map_append]
  exact List.prefix_append _ _

theorem faithful_of_rows {c d : Conversion} {rows : List Row} (hc : c.clock.Faithful)
    (h : rows.foldlM step c = .ok d) : d.clock.Faithful := by
  induction rows generalizing c with
  | nil =>
    cases h
    exact hc
  | cons row rows ih =>
    rw [List.foldlM_cons] at h
    obtain ⟨c₁, hstep, hrows⟩ := bind_eq_ok_iff.mp h
    exact ih (applies_of_step hc hstep).1 hrows

/-- The first rows of rows that can be converted can be converted. Their table is the start of that
of all rows, and their transactions, so their records, are written for all rows, in order. Each
other transaction that is written for all rows was dropped as open or starts with a later row. -/
theorem ofRows_prefix {rows more : List Row} {d : Conversion} (h : ofRows (rows ++ more) = .ok d) :
    ∃ c, ofRows rows = .ok c ∧ c.entries <+: d.entries ∧ c.written <+ d.written ∧
      c.records <+ d.records ∧ c.trace = traceBytes c.written c.entries ∧
      d.trace = traceBytes d.written d.entries ∧
      ∃ opened finished starts begun, d.written ~ c.written ++ (finished ++ begun) ∧
        d.records ~ c.records ++ recordsOf (finished ++ begun) ∧
        opened <+ c.dropped ∧ List.Forall₂ Continues opened finished ∧
        starts <+ more.filterMap eventOfRow? ∧ List.Forall₂ Event.Starts starts begun := by
  obtain ⟨c, hc, hmore⟩ := ofRows_append_eq_ok_iff.mp h
  have hgathers := gathers_of_rows (faithful_of_rows Clock.faithful_new hc) hmore
  have hgrows := grows_run hgathers
  have hcomplete : d.written = complete d.transactions.reverse := rfl
  generalize d.transactions.reverse = us at hgrows hcomplete
  obtain ⟨hkept, hstarts, hbegun⟩ := hgrows
  rename_i kept begun starts
  obtain ⟨opened, finished, hopened, hfinished, hperm⟩ := exists_finished hkept
  obtain ⟨starts', hstarts', hbegun'⟩ :=
    exists_sublist_of_forall₂ hbegun (List.filter_sublist : complete begun <+ begun)
  have happend : d.written = complete kept ++ complete begun := by
    rw [hcomplete]
    exact List.filter_append _ _
  have hwritten : c.written <+ d.written := by
    rw [happend]
    exact (complete_sublist hkept).trans (List.sublist_append_left _ _)
  have hothers : d.written ~ c.written ++ (finished ++ complete begun) := by
    rw [happend, ← List.append_assoc]
    exact hperm.append_right (complete begun)
  refine ⟨c, hc, entries_prefix (prefix_of_gathers hgathers), hwritten, ?_, trace_eq_traceBytes c,
    trace_eq_traceBytes d, opened, finished, starts', complete begun, hothers, ?_, hopened,
    hfinished, hstarts'.trans hstarts, hbegun'⟩
  · rw [records_eq_written, records_eq_written]
    exact hwritten.flatMap _
  · rw [records_eq_written, records_eq_written, recordsOf, recordsOf, recordsOf,
      ← List.flatMap_append]
    exact hothers.flatMap_right _

/-- The rows of two sessions, of which one has a statement alone before the other one closes its
transaction, and starts another transaction behind. -/
def splitRows : List Row × List Row :=
  let row (time vxid message : String) : Row :=
    ⟨1, [time, "", "", "", "", "", "", "", "", vxid, "", "", "", message, ""], Nat.le_refl _⟩
  ([row "2023-11-12 13:06:58.721 UTC" "4/7" "statement: BEGIN",
      row "2023-11-12 13:06:58.722 UTC" "5/1" "statement: SELECT 2"],
    [row "2023-11-12 13:06:58.723 UTC" "4/7" "statement: SELECT 1",
      row "2023-11-12 13:06:58.724 UTC" "4/7" "statement: COMMIT",
      row "2023-11-12 13:06:58.725 UTC" "5/1" "statement: SELECT 1"])

/-- The transaction that is open after the first rows is written before the one that is complete. -/
theorem ofRows_prefix_split :
    ∃ c d, ofRows splitRows.1 = .ok c ∧ ofRows (splitRows.1 ++ splitRows.2) = .ok d ∧
      c.entries <+: d.entries ∧ c.written <+ d.written ∧ c.records <+ d.records ∧
      d.written.map (·.vxid) = ["4/7", "5/1", "5/1"] := by
  have hall : (ofRows (splitRows.1 ++ splitRows.2)).toOption.map (·.written.map (·.vxid)) =
      some ["4/7", "5/1", "5/1"] := by
    decide +kernel
  obtain ⟨d, hd, hvxids⟩ := Option.map_eq_some_iff.mp hall
  rw [toOption_eq_some_iff] at hd
  obtain ⟨c, hc, hentries, hwritten, hrecords, -⟩ := ofRows_prefix hd
  exact ⟨c, d, hc, hd, hentries, hwritten, hrecords, hvxids⟩

end Conversion

end WorkloadReplay
