import WorkloadReplay.Proofs.SessionInvariant

/-!
# The transactions that are gathered

The transactions that have been gathered, each completed by the events that are still to come, and
those that start with these events are together the transactions of the log, after every event. At
the end of the log there is nothing to come, so what has been gathered is what the log means.
-/

namespace WorkloadReplay.Conversion
open Log

def sqlCall (texts : Array String) (c : LoggedCall) : SqlCall :=
  ⟨texts[c.id.toNat]?.getD "", c.params, c.time⟩

/-- What becomes of a transaction with the events that are still to come. -/
def finish? (texts : Array String) (after : List Event) (t : LoggedTransaction) :
    Option SessionTransaction :=
  match t.state with
  | .implicit => t.calls.head?.map fun c => .implicit (sqlCall texts c)
  | .opened =>
    (block? t.vxid after).map fun (calls, ended, rolledBack) =>
      .explicit t.time (t.calls.reverse.map (sqlCall texts) ++ calls) ended rolledBack
  | .closed ended rolledBack =>
    some (.explicit t.time (t.calls.reverse.map (sqlCall texts)) ended rolledBack)

section

variable {texts : Array String} {e : Event} {after : List Event} {t : LoggedTransaction}

theorem block?_cons_of_closed (hstate : t.state = .opened) (h : t.isOpenFor e.vxid = false) :
    block? t.vxid (e :: after) = block? t.vxid after := by
  have hne : e.vxid ≠ t.vxid := by
    intro hvxid
    have hopen : t.isOpenFor e.vxid = true :=
      isOpenFor_iff.mpr ⟨by rw [LoggedTransaction.isOpen, hstate], hvxid.symm⟩
    rw [h] at hopen
    cases hopen
  rw [block?, if_neg hne]

theorem finish?_cons_of_closed (h : t.isOpenFor e.vxid = false) :
    finish? texts (e :: after) t = finish? texts after t := by
  unfold finish?
  cases hstate : t.state with
  | implicit => rfl
  | closed ended rolledBack => rfl
  | opened => rw [block?_cons_of_closed hstate h]

theorem state_of_isOpenFor {vxid : String} (h : t.isOpenFor vxid = true) :
    t.state = .opened ∧ t.vxid = vxid := by
  obtain ⟨hopen, hvxid⟩ := isOpenFor_iff.mp h
  refine ⟨?_, hvxid⟩
  unfold LoggedTransaction.isOpen at hopen
  split at hopen
  · assumption
  · cases hopen

theorem finish?_close {rolledBack : Bool} (hkind : e.kind = .close rolledBack)
    (h : t.isOpenFor e.vxid = true) :
    finish? texts (e :: after) t =
      finish? texts after { t with state := .closed e.time rolledBack } := by
  obtain ⟨hstate, hvxid⟩ := state_of_isOpenFor h
  simp [finish?, hstate, block?, hvxid, hkind]

theorem finish?_call {sql : String} {params : List Value} {call : LoggedCall}
    (hkind : e.kind = .statement sql params) (hcall : sqlCall texts call = ⟨sql, params, e.time⟩)
    (h : t.isOpenFor e.vxid = true) :
    finish? texts (e :: after) t = finish? texts after { t with calls := call :: t.calls } := by
  obtain ⟨hstate, hvxid⟩ := state_of_isOpenFor h
  simp [finish?, hstate, block?, hvxid, hkind, hcall, Function.comp_def]

end

/-- A change that makes up for an event leaves the finished transactions as they are. -/
theorem filterMap_updateFirst {texts : Array String} {e : Event} {after : List Event}
    {ts : List LoggedTransaction} {change : LoggedTransaction → LoggedTransaction} (h : Apart ts)
    (hchange : ∀ t, t.isOpenFor e.vxid = true →
      finish? texts (e :: after) t = finish? texts after (change t)) :
    (updateFirst e.vxid change ts).filterMap (finish? texts after) =
      ts.filterMap (finish? texts (e :: after)) := by
  have hmap := map_updateFirst h (fun t => finish?_cons_of_closed) hchange
  have hfinished := congrArg (List.filterMap id) hmap
  rwa [List.filterMap_map, List.filterMap_map, Function.id_comp, Function.id_comp] at hfinished

theorem filterMap_of_closed {texts : Array String} {e : Event} {after : List Event}
    {ts : List LoggedTransaction} (h : hasOpen ts e.vxid = false) :
    ts.filterMap (finish? texts (e :: after)) = ts.filterMap (finish? texts after) := by
  apply List.filterMap_congr
  intro t ht
  exact finish?_cons_of_closed (hasOpen_eq_false_iff.mp h t ht)

/-- A text that is added keeps its id. -/
theorem sqlCall_of_prefix {texts final : Array String} {sql : String}
    (hextends : (withText texts sql).toList <+: final.toList) (hsize : final.size ≤ UInt32.size)
    (params : List Value) (time : Int64) :
    sqlCall final ⟨time, idOf texts sql, params⟩ = ⟨sql, params, time⟩ := by
  have hle : (withText texts sql).size ≤ final.size := by simpa using hextends.length_le
  have hget : (withText texts sql).toList[(idOf texts sql).toNat]? = some sql := by
    rw [Array.getElem?_toList]
    exact getElem?_idOf (Nat.le_trans hle hsize)
  have hfinal : final[(idOf texts sql).toNat]? = some sql := by
    obtain ⟨more, hmore⟩ := hextends
    have hlt := (List.getElem?_eq_some_iff.mp hget).1
    rw [← Array.getElem?_toList, ← hmore, List.getElem?_append_left hlt, hget]
  rw [sqlCall, hfinal]
  rfl

private theorem filterMap_singleton_eq {α β : Type} (f : α → Option β) (a : α) :
    [a].filterMap f = (f a).toList := by
  cases h : f a with
  | none => simp [h]
  | some b => simp [h]

/-- An event leaves the finished transactions and those that are still to start as they are. -/
theorem finished_step {before after : List Event} {e : Event} {ts ts' : List LoggedTransaction}
    {texts texts' final : Array String} (h : Applies e ts texts ts' texts')
    (hc : Consistent before ts texts) (hextends : texts'.toList <+: final.toList)
    (hsize : final.size ≤ UInt32.size) :
    ts.reverse.filterMap (finish? final (e :: after)) ++ (transactionAt? before e after).toList =
      ts'.reverse.filterMap (finish? final after) := by
  cases h with
  | opened hkind hopen =>
    have hnew : transactionAt? before e after =
        finish? final after ⟨e.vxid, e.time, .opened, []⟩ := by
      simp [transactionAt?, hkind, finish?]
    rw [List.reverse_cons, List.filterMap_append, filterMap_singleton_eq, hnew]
    rw [List.filterMap_reverse, List.filterMap_reverse, filterMap_of_closed hopen]
  | closed hkind hopen =>
    have hnone : transactionAt? before e after = none := by rw [transactionAt?, hkind]
    rw [hnone, Option.toList_none, List.append_nil, List.filterMap_reverse,
      List.filterMap_reverse]
    rw [filterMap_updateFirst hc.apart fun t ht => finish?_close hkind ht]
  | @called sql params hkind hopen =>
    have hnone : transactionAt? before e after = none := by
      simp [transactionAt?, hkind, ← hc.hasOpen, hopen]
    have hcall := sqlCall_of_prefix hextends hsize params e.time
    rw [hnone, Option.toList_none, List.append_nil, List.filterMap_reverse,
      List.filterMap_reverse]
    rw [filterMap_updateFirst hc.apart fun t ht => finish?_call hkind hcall ht]
  | @alone sql params hkind hopen =>
    have hcall := sqlCall_of_prefix hextends hsize params e.time
    have hnew : transactionAt? before e after = finish? final after
        ⟨e.vxid, e.time, .implicit, [⟨e.time, idOf texts sql, params⟩]⟩ := by
      simp [transactionAt?, hkind, finish?, ← hc.hasOpen, hopen, hcall]
    rw [List.reverse_cons, List.filterMap_append, filterMap_singleton_eq, hnew]
    rw [List.filterMap_reverse, List.filterMap_reverse, filterMap_of_closed hopen]

theorem prefix_of_applies {e : Event} {ts ts' : List LoggedTransaction}
    {texts texts' : Array String} (h : Applies e ts texts ts' texts') :
    texts.toList <+: texts'.toList := by
  cases h with
  | opened => exact List.prefix_rfl
  | closed => exact List.prefix_rfl
  | called => exact prefix_withText _ _
  | alone => exact prefix_withText _ _

theorem prefix_of_gathers {es : List Event} {ts ts' : List LoggedTransaction}
    {texts texts' : Array String} (h : Gathers ts texts es ts' texts') :
    texts.toList <+: texts'.toList := by
  induction h with
  | nil => exact List.prefix_rfl
  | cons h _ ih => exact (prefix_of_applies h).trans ih

/-- Gathering all events gives what is finished already, and what starts with these events. -/
theorem finished_run {es before : List Event} {ts ts' : List LoggedTransaction}
    {texts texts' : Array String} (h : Gathers ts texts es ts' texts')
    (hes : ∀ e ∈ es, Survives e) (hc : Consistent before ts texts)
    (hsize : texts'.size ≤ UInt32.size) :
    ts.reverse.filterMap (finish? texts' es) ++ transactionsFrom before es =
      ts'.reverse.filterMap (finish? texts' []) := by
  -- Both sides are read with the texts at the end: an id that is given out later does not change
  -- what an earlier one stands for.
  induction h generalizing before with
  | nil => rw [transactionsFrom, List.append_nil]
  | @cons ts ts₁ ts₂ texts texts₁ texts₂ e es h hs ih =>
    have hstep := consistent_step h (hes e List.mem_cons_self) hc
    rw [transactionsFrom, ← List.append_assoc,
      finished_step h hc (prefix_of_gathers hs) hsize]
    exact ih (fun e he => hes e (List.mem_cons_of_mem _ he)) hstep hsize

theorem consistent_run {es before : List Event} {ts ts' : List LoggedTransaction}
    {texts texts' : Array String} (h : Gathers ts texts es ts' texts')
    (hes : ∀ e ∈ es, Survives e) (hc : Consistent before ts texts) :
    Consistent (es.reverse ++ before) ts' texts' := by
  induction h generalizing before with
  | nil => exact hc
  | cons h hs ih =>
    have hstep := consistent_step h (hes _ List.mem_cons_self) hc
    rw [List.reverse_cons, List.append_assoc]
    exact ih (fun e he => hes e (List.mem_cons_of_mem _ he)) hstep

end WorkloadReplay.Conversion
