import WorkloadReplay.Proofs.SessionGathering

/-!
# What holds while sessions are gathered

Each session has at most one open transaction, and it is the one that its events say. So a row that
belongs to an open transaction finds it, and no other is changed. The calls that have been gathered
have ids of texts that are there.
-/

namespace WorkloadReplay.Conversion
open Log

/-- No two transactions are open under one virtual id. -/
def Apart (ts : List LoggedTransaction) : Prop :=
  ts.Pairwise fun a b => a.isOpen = true → b.isOpen = true → a.vxid ≠ b.vxid

section

variable {ts : List LoggedTransaction} {t : LoggedTransaction} {vxid : String}

theorem isOpenFor_iff : t.isOpenFor vxid = true ↔ t.isOpen = true ∧ t.vxid = vxid := by
  simp [LoggedTransaction.isOpenFor]

theorem hasOpen_eq_false_iff :
    hasOpen ts vxid = false ↔ ∀ t ∈ ts, t.isOpenFor vxid = false := by
  simp [hasOpen]

theorem updateFirst_eq_map (h : Apart ts) (change : LoggedTransaction → LoggedTransaction) :
    updateFirst vxid change ts = ts.map fun t => if t.isOpenFor vxid then change t else t := by
  induction ts with
  | nil => rfl
  | cons t ts ih =>
    obtain ⟨hne, hts⟩ := List.pairwise_cons.mp h
    rw [updateFirst, List.map_cons]
    split
    · rename_i hopen
      congr 1
      obtain ⟨hisOpen, hvxid⟩ := isOpenFor_iff.mp hopen
      have hsame : ∀ u ∈ ts, (if u.isOpenFor vxid then change u else u) = id u := by
        intro u hu
        have hclosed : ¬ u.isOpenFor vxid = true := by
          intro hu'
          obtain ⟨huOpen, huVxid⟩ := isOpenFor_iff.mp hu'
          exact hne u hu hisOpen huOpen (hvxid.trans huVxid.symm)
        exact if_neg hclosed
      rw [List.map_congr_left hsame, List.map_id]
    · rw [ih hts]

/-- What is read off the transactions stays if the change makes up for another way to read. -/
theorem map_updateFirst {β : Type} {read reread : LoggedTransaction → β} (h : Apart ts)
    {change : LoggedTransaction → LoggedTransaction}
    (hother : ∀ t, t.isOpenFor vxid = false → read t = reread t)
    (hchange : ∀ t, t.isOpenFor vxid = true → read t = reread (change t)) :
    (updateFirst vxid change ts).map reread = ts.map read := by
  rw [updateFirst_eq_map h, List.map_map]
  apply List.map_congr_left
  intro t _
  simp only [Function.comp_apply]
  split
  · rename_i hopen
    exact (hchange t hopen).symm
  · rename_i hclosed
    exact (hother t (Bool.eq_false_iff.mpr hclosed)).symm

theorem Apart.updateFirst (h : Apart ts) {change : LoggedTransaction → LoggedTransaction}
    (hchange : ∀ t, (change t).isOpen = true → t.isOpen = true ∧ (change t).vxid = t.vxid) :
    Apart (updateFirst vxid change ts) := by
  have hboth : ∀ t : LoggedTransaction,
      (if t.isOpenFor vxid then change t else t).isOpen = true →
      t.isOpen = true ∧ (if t.isOpenFor vxid then change t else t).vxid = t.vxid := by
    intro t ht
    split at ht
    · rename_i hopen
      rw [if_pos hopen]
      exact hchange t ht
    · rename_i hclosed
      rw [if_neg hclosed]
      exact ⟨ht, rfl⟩
  rw [updateFirst_eq_map h]
  unfold Apart
  rw [List.pairwise_map]
  apply h.imp
  intro a b hab ha hb
  obtain ⟨ha', hav⟩ := hboth a ha
  obtain ⟨hb', hbv⟩ := hboth b hb
  rw [hav, hbv]
  exact hab ha' hb'

theorem Apart.cons (h : Apart ts) (ht : t.isOpen = true → hasOpen ts t.vxid = false) :
    Apart (t :: ts) := by
  apply List.pairwise_cons.mpr
  refine ⟨?_, h⟩
  intro u hu htOpen huOpen hvxid
  have := hasOpen_eq_false_iff.mp (ht htOpen) u hu
  rw [isOpenFor_iff.mpr ⟨huOpen, hvxid.symm⟩] at this
  cases this

theorem mem_updateFirst {change : LoggedTransaction → LoggedTransaction}
    (h : t ∈ updateFirst vxid change ts) :
    t ∈ ts ∨ ∃ u ∈ ts, u.isOpenFor vxid = true ∧ t = change u := by
  induction ts with
  | nil => cases h
  | cons u ts ih =>
    rw [updateFirst] at h
    split at h
    · rename_i hopen
      cases h with
      | head => exact .inr ⟨u, List.mem_cons_self, hopen, rfl⟩
      | tail _ h => exact .inl (List.mem_cons_of_mem u h)
    · cases h with
      | head => exact .inl List.mem_cons_self
      | tail _ h =>
        rcases ih h with hmem | ⟨v, hv, hopen, rfl⟩
        · exact .inl (List.mem_cons_of_mem u hmem)
        · exact .inr ⟨v, List.mem_cons_of_mem u hv, hopen, rfl⟩

theorem hasOpen_updateFirst {change : LoggedTransaction → LoggedTransaction}
    (hchange : ∀ t v, (change t).isOpenFor v = t.isOpenFor v) (v : String) :
    hasOpen (updateFirst vxid change ts) v = hasOpen ts v := by
  induction ts with
  | nil => rfl
  | cons t ts ih =>
    rw [updateFirst]
    split
    · simp only [hasOpen, List.any_cons, hchange]
    · simp only [hasOpen, List.any_cons] at ih ⊢
      rw [ih]

theorem hasOpen_close (h : Apart ts) {change : LoggedTransaction → LoggedTransaction}
    (hchange : ∀ t, (change t).isOpen = false) (v : String) :
    hasOpen (updateFirst vxid change ts) v = (decide (vxid ≠ v) && hasOpen ts v) := by
  rw [updateFirst_eq_map h, hasOpen, hasOpen, List.any_map]
  have hsame : (fun t => t.isOpenFor v) ∘ (fun t => if t.isOpenFor vxid then change t else t) =
      fun t => decide (vxid ≠ v) && t.isOpenFor v := by
    funext t
    simp only [Function.comp_apply]
    split
    · rename_i hopen
      obtain ⟨-, rfl⟩ := isOpenFor_iff.mp hopen
      by_cases hv : t.vxid = v
      · simp [LoggedTransaction.isOpenFor, hchange, hv]
      · simp [LoggedTransaction.isOpenFor, hchange, hv]
    · rename_i hclosed
      by_cases hv : vxid = v
      · subst hv
        simpa using hclosed
      · simp [hv]
  rw [hsame]
  by_cases hv : vxid = v
  · simp [hv]
  · simp [hv]

end

/-- What holds of a transaction where there are so many texts. -/
structure Sane (size : Nat) (t : LoggedTransaction) : Prop where
  single : t.state = .implicit → ∃ call, t.calls = [call]
  resolved : ∀ call ∈ t.calls, call.id.toNat < size
  canonical : ∀ call ∈ t.calls, call.params.map Value.canonical = call.params

section

variable {size : Nat} {t : LoggedTransaction} {call : LoggedCall}

theorem Sane.mono {size' : Nat} (h : Sane size t) (hle : size ≤ size') : Sane size' t :=
  ⟨h.single, fun call hcall => Nat.lt_of_lt_of_le (h.resolved call hcall) hle, h.canonical⟩

theorem sane_opened (size : Nat) (vxid : String) (time : Int64) :
    Sane size ⟨vxid, time, .opened, []⟩ := ⟨nofun, by simp, by simp⟩

theorem Sane.closed (h : Sane size t) (ended : Int64) (rolledBack : Bool) :
    Sane size { t with state := .closed ended rolledBack } := ⟨nofun, h.resolved, h.canonical⟩

theorem Sane.called (h : Sane size t) (hopen : t.isOpen = true) (hid : call.id.toNat < size)
    (hparams : call.params.map Value.canonical = call.params) :
    Sane size { t with calls := call :: t.calls } := by
  refine ⟨?_, ?_, ?_⟩
  · intro himplicit
    rw [LoggedTransaction.isOpen, show t.state = .implicit from himplicit] at hopen
    cases hopen
  · intro c hc
    cases hc with
    | head => exact hid
    | tail _ hc => exact h.resolved c hc
  · intro c hc
    cases hc with
    | head => exact hparams
    | tail _ hc => exact h.canonical c hc

theorem sane_alone (vxid : String) (time : Int64) (hid : call.id.toNat < size)
    (hparams : call.params.map Value.canonical = call.params) :
    Sane size ⟨vxid, time, .implicit, [call]⟩ := by
  refine ⟨fun _ => ⟨call, rfl⟩, ?_, ?_⟩
  · intro c hc
    obtain rfl := List.mem_singleton.mp hc
    exact hid
  · intro c hc
    obtain rfl := List.mem_singleton.mp hc
    exact hparams

end

/-- What holds of the transactions and texts after some events, the last of which stands first. -/
structure Consistent (before : List Event) (ts : List LoggedTransaction) (texts : Array String) :
    Prop where
  apart : Apart ts
  hasOpen : ∀ vxid, hasOpen ts vxid = isOpenAfter vxid before
  sane : ∀ t ∈ ts, Sane texts.size t
  nodup : texts.toList.Nodup
  mem : ∀ sql ∈ texts.toList, sql ∈ before.filterMap Event.sql?

theorem consistent_nil : Consistent [] [] #[] where
  apart := .nil
  hasOpen := by
    intro vxid
    rfl
  sane := by simp
  nodup := .nil
  mem := by simp

def Survives (e : Event) : Prop :=
  ∀ sql params, e.kind = .statement sql params → params.map Value.canonical = params

theorem survives_of_eventOfRow? {row : Row} {e : Event} (h : eventOfRow? row = some e) :
    Survives e := by
  intro sql params hkind
  unfold eventOfRow? eventOfRow at h
  cases hsql : sqlOfMessage? row.message with
  | none =>
    rw [hsql] at h
    cases h
  | some text =>
    rw [hsql] at h
    dsimp only at h
    generalize (Clock.new.parse row.logTime).2 = answer at h
    cases answer with
    | error fault => cases h
    | ok time =>
      unfold kindOfSql at h
      dsimp only at h
      generalize classify text = boundary at h
      cases boundary with
      | begin => cases h; cases hkind
      | commit => cases h; cases hkind
      | rollback => cases h; cases hkind
      | statement =>
        dsimp only at h
        cases hparams : paramsOfDetail row.detail row.line with
        | error fault =>
          rw [hparams] at h
          cases h
        | ok found =>
          rw [hparams] at h
          cases h
          cases hkind
          exact canonical_of_paramsOfDetail hparams

theorem size_le_withText (texts : Array String) (sql : String) :
    texts.size ≤ (withText texts sql).size := by
  simpa using (prefix_withText texts sql).length_le

theorem mem_texts_cons {before : List Event} {e : Event} {sql : String}
    (h : sql ∈ before.filterMap Event.sql?) : sql ∈ (e :: before).filterMap Event.sql? := by
  obtain ⟨d, hd, hsql⟩ := List.mem_filterMap.mp h
  exact List.mem_filterMap.mpr ⟨d, List.mem_cons_of_mem e hd, hsql⟩

theorem mem_withText_cons {before : List Event} {e : Event} {texts : Array String} {sql : String}
    {params : List Value} (hkind : e.kind = .statement sql params)
    (h : ∀ s ∈ texts.toList, s ∈ before.filterMap Event.sql?) :
    ∀ s ∈ (withText texts sql).toList, s ∈ (e :: before).filterMap Event.sql? := by
  intro s hs
  rcases mem_withText hs with hs | rfl
  · exact mem_texts_cons (h s hs)
  · exact List.mem_filterMap.mpr ⟨e, List.mem_cons_self, by rw [Event.sql?, hkind]⟩

theorem consistent_step {before : List Event} {e : Event} {ts ts' : List LoggedTransaction}
    {texts texts' : Array String} (h : Applies e ts texts ts' texts') (he : Survives e)
    (hc : Consistent before ts texts) : Consistent (e :: before) ts' texts' := by
  cases h with
  | opened hkind hopen =>
    refine ⟨hc.apart.cons fun _ => hopen, ?_, ?_, hc.nodup,
      fun s hs => mem_texts_cons (hc.mem s hs)⟩
    · intro vxid
      rw [isOpenAfter, hkind, ← hc.hasOpen]
      by_cases hv : e.vxid = vxid
      · simp [Conversion.hasOpen, LoggedTransaction.isOpenFor, LoggedTransaction.isOpen, hv]
      · simp [Conversion.hasOpen, LoggedTransaction.isOpenFor, LoggedTransaction.isOpen, hv]
    · intro t ht
      cases ht with
      | head => exact sane_opened _ _ _
      | tail _ ht => exact hc.sane t ht
  | @closed rolledBack hkind hopen =>
    refine ⟨?_, ?_, ?_, hc.nodup, fun s hs => mem_texts_cons (hc.mem s hs)⟩
    · apply hc.apart.updateFirst
      intro t ht
      cases ht
    · intro vxid
      rw [isOpenAfter, hkind, ← hc.hasOpen, hasOpen_close hc.apart fun _ => rfl]
      by_cases hv : e.vxid = vxid
      · simp [hv]
      · simp [hv]
    · intro t ht
      rcases mem_updateFirst ht with ht | ⟨u, hu, -, rfl⟩
      · exact hc.sane t ht
      · exact (hc.sane u hu).closed e.time rolledBack
  | @called sql params hkind hopen =>
    have hsize := size_le_withText texts sql
    refine ⟨?_, ?_, ?_, nodup_withText hc.nodup sql, mem_withText_cons hkind hc.mem⟩
    · apply hc.apart.updateFirst
      intro t ht
      exact ⟨ht, rfl⟩
    · intro vxid
      rw [isOpenAfter, hkind, ← hc.hasOpen]
      have hsame : hasOpen (updateFirst e.vxid (fun t =>
          { t with calls := ⟨e.time, idOf texts sql, params⟩ :: t.calls }) ts) vxid =
            hasOpen ts vxid := hasOpen_updateFirst (by intro t v; rfl) vxid
      rw [hsame]
      split
      · rfl
      · rfl
    · intro t ht
      rcases mem_updateFirst ht with ht | ⟨u, hu, huOpen, rfl⟩
      · exact (hc.sane t ht).mono hsize
      · exact ((hc.sane u hu).mono hsize).called (isOpenFor_iff.mp huOpen).1 (idOf_lt texts sql)
          (he sql params hkind)
  | @alone sql params hkind hopen =>
    have hsize := size_le_withText texts sql
    refine ⟨?_, ?_, ?_, nodup_withText hc.nodup sql, mem_withText_cons hkind hc.mem⟩
    · exact hc.apart.cons nofun
    · intro vxid
      rw [isOpenAfter, hkind, ← hc.hasOpen]
      split
      · rfl
      · rfl
    · intro t ht
      cases ht with
      | head => exact sane_alone _ _ (idOf_lt texts sql) (he sql params hkind)
      | tail _ ht => exact (hc.sane t ht).mono hsize

end WorkloadReplay.Conversion
