import WorkloadReplay.Proofs.SessionMeaning
import Mathlib.Data.List.Forall2

/-!
# Transactions up to the ids of their texts

Two conversions can give a text different ids. Transactions of theirs are the same if they differ
only in the ids of the same texts; where there are not too many texts, they are equal with the texts
in place of the ids.
-/

namespace WorkloadReplay.Conversion
open Log

/-- Two calls of one text, which has an id among some texts and one among others. -/
structure SameCall (texts texts' : Array String) (a b : LoggedCall) : Prop where
  time : a.time = b.time
  params : a.params = b.params
  named : ∃ sql, Names texts a.id sql ∧ Names texts' b.id sql

/-- Two transactions that are the same but for the ids of the texts of their calls. -/
structure SameTransaction (texts texts' : Array String) (t u : LoggedTransaction) : Prop where
  vxid : t.vxid = u.vxid
  time : t.time = u.time
  state : t.state = u.state
  calls : List.Forall₂ (SameCall texts texts') t.calls u.calls

section

variable {texts texts' more more' : Array String} {t u : LoggedTransaction}

theorem SameCall.mono {a b : LoggedCall} (h : SameCall texts texts' a b)
    (hgrows : texts.toList <+: more.toList) (hgrows' : texts'.toList <+: more'.toList) :
    SameCall more more' a b := by
  obtain ⟨sql, ha, hb⟩ := h.named
  exact ⟨h.time, h.params, sql, ha.mono hgrows, hb.mono hgrows'⟩

theorem SameTransaction.mono (h : SameTransaction texts texts' t u)
    (hgrows : texts.toList <+: more.toList) (hgrows' : texts'.toList <+: more'.toList) :
    SameTransaction more more' t u :=
  ⟨h.vxid, h.time, h.state, h.calls.imp fun _ _ hcall => hcall.mono hgrows hgrows'⟩

theorem SameTransaction.isOpen (h : SameTransaction texts texts' t u) : t.isOpen = u.isOpen := by
  rw [LoggedTransaction.isOpen, LoggedTransaction.isOpen, h.state]

theorem SameTransaction.isOpenFor (h : SameTransaction texts texts' t u) (vxid : String) :
    t.isOpenFor vxid = u.isOpenFor vxid := by
  rw [LoggedTransaction.isOpenFor, LoggedTransaction.isOpenFor, h.isOpen, h.vxid]

theorem sameCall_idOf (texts texts' : Array String) (sql : String) (params : List Value)
    (time : Int64) :
    SameCall (withText texts sql) (withText texts' sql) ⟨time, idOf texts sql, params⟩
      ⟨time, idOf texts' sql, params⟩ :=
  ⟨rfl, rfl, sql, names_idOf texts sql, names_idOf texts' sql⟩

end

/-- The transactions that are written, in order. -/
def written (c : Conversion) : List LoggedTransaction :=
  c.transactions.reverse.filter fun t => !t.isOpen

def dropped (c : Conversion) : List LoggedTransaction := c.transactions.reverse.filter (·.isOpen)

structure TextTransaction where
  vxid : String
  time : Int64
  state : LoggedState
  calls : List SqlCall
  deriving DecidableEq

def withTexts (texts : Array String) (t : LoggedTransaction) : TextTransaction :=
  ⟨t.vxid, t.time, t.state, t.calls.reverse.map (sqlCall texts)⟩

def recordsOf (ts : List LoggedTransaction) : List Trace.Record := ts.flatMap (·.records)

/-- The bytes of a trace of transactions and a statement table. -/
def traceBytes (ts : List LoggedTransaction) (entries : List Trace.Entry) : List UInt8 :=
  (recordsOf ts).flatMap Trace.Record.encode ++ Trace.delimiterLine ++
    entries.flatMap Trace.Entry.encode

/-- A record with the text of its id. -/
def resolved (texts : Array String) (r : Trace.Record) : Trace.Record :=
  match r.tag with
  | .id id => { r with tag := .inline (texts[id.toNat]?.getD "") }
  | _ => r

theorem records_eq_written (c : Conversion) : c.records = recordsOf c.written := by
  unfold records recordsOf written
  induction c.transactions.reverse with
  | nil => rfl
  | cons t ts ih =>
    rw [List.flatMap_cons, ih, List.filter_cons]
    cases hstate : t.state with
    | opened => simp [LoggedTransaction.isOpen, LoggedTransaction.records, hstate]
    | implicit => simp [LoggedTransaction.isOpen, hstate]
    | closed ended rolledBack => simp [LoggedTransaction.isOpen, hstate]

theorem trace_eq_traceBytes (c : Conversion) : c.trace = traceBytes c.written c.entries := by
  rw [trace, traceBytes, records_eq_written]

section

variable {texts texts' : Array String}

theorem SameCall.sqlCall_eq {a b : LoggedCall} (h : SameCall texts texts' a b)
    (hsize : texts.size ≤ UInt32.size) (hsize' : texts'.size ≤ UInt32.size) :
    sqlCall texts a = sqlCall texts' b := by
  obtain ⟨sql, ha, hb⟩ := h.named
  rw [sqlCall, sqlCall, ha.getElem? hsize, hb.getElem? hsize', h.params, h.time]

theorem map_eq_of_forall₂ {α β γ : Type} {R : α → β → Prop} {f : α → γ} {g : β → γ}
    {as : List α} {bs : List β} (hfg : ∀ a b, R a b → f a = g b) (h : List.Forall₂ R as bs) :
    as.map f = bs.map g := by
  rw [← List.forall₂_eq_eq_eq, List.forall₂_map_left_iff, List.forall₂_map_right_iff]
  exact h.imp hfg

theorem SameTransaction.withTexts_eq {t u : LoggedTransaction}
    (h : SameTransaction texts texts' t u) (hsize : texts.size ≤ UInt32.size)
    (hsize' : texts'.size ≤ UInt32.size) :
    withTexts texts t = withTexts texts' u := by
  have hcalls : t.calls.map (sqlCall texts) = u.calls.map (sqlCall texts') :=
    map_eq_of_forall₂ (fun a b hab => hab.sqlCall_eq hsize hsize') h.calls
  rw [withTexts, withTexts, h.vxid, h.time, h.state, List.map_reverse, hcalls, List.map_reverse]

theorem resolved_callRecord (texts : Array String) (c : LoggedCall) :
    resolved texts (LoggedTransaction.callRecord c) =
      let call := sqlCall texts c
      ⟨call.time, .inline call.sql, call.params⟩ := rfl

theorem SameTransaction.resolved_records {t u : LoggedTransaction}
    (h : SameTransaction texts texts' t u) (hsize : texts.size ≤ UInt32.size)
    (hsize' : texts'.size ≤ UInt32.size) :
    t.records.map (resolved texts) = u.records.map (resolved texts') := by
  have hcalls : (t.calls.reverse.map LoggedTransaction.callRecord).map (resolved texts) =
      (u.calls.reverse.map LoggedTransaction.callRecord).map (resolved texts') := by
    rw [List.map_map, List.map_map]
    refine map_eq_of_forall₂ (fun a b hab => ?_) (List.rel_reverse h.calls)
    rw [Function.comp_apply, Function.comp_apply, resolved_callRecord, resolved_callRecord,
      hab.sqlCall_eq hsize hsize']
  unfold LoggedTransaction.records
  rw [h.state, h.time]
  split
  · rfl
  · exact hcalls
  · rename_i ended rolledBack _
    rw [List.map_cons, List.map_cons, List.map_append, List.map_append, hcalls]
    cases rolledBack <;> rfl

theorem resolved_recordsOf {ts us : List LoggedTransaction}
    (h : List.Forall₂ (SameTransaction texts texts') ts us) (hsize : texts.size ≤ UInt32.size)
    (hsize' : texts'.size ≤ UInt32.size) :
    (recordsOf ts).map (resolved texts) = (recordsOf us).map (resolved texts') := by
  have hrecords : ts.map (fun t => t.records.map (resolved texts)) =
      us.map (fun u => u.records.map (resolved texts')) :=
    map_eq_of_forall₂ (fun t u htu => htu.resolved_records hsize hsize') h
  rw [recordsOf, recordsOf, List.map_flatMap, List.map_flatMap, List.flatMap_def,
    List.flatMap_def, hrecords]

end

end WorkloadReplay.Conversion
