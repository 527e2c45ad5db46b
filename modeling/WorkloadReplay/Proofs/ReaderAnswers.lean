import WorkloadReplay.Proofs.BufferedReading

/-!
# Answers of a reader

Each operation of a reader answers like the same operation on all the bytes that the reader has
still to give (`Whole`). A fault may differ in what depends on the buffer, and a read call that
fails stands for the answer.
-/

namespace WorkloadReplay.Trace

/-- Two answers with the same result, or with faults that differ at most in what depends on the
buffer. -/
inductive Alike {α : Type} : Except Fault α → Except Fault α → Prop where
  | ok (a : α) : Alike (.ok a) (.ok a)
  | error {f g : Fault} (h : f.Alike g) : Alike (.error f) (.error g)

section

variable {α β : Type}

theorem Alike.refl (x : Except Fault α) : Alike x x := by
  cases x with
  | ok a => exact .ok a
  | error f => exact .error (.same f)

theorem Alike.symm {x y : Except Fault α} (h : Alike x y) : Alike y x := by
  cases h with
  | ok a => exact .ok a
  | error h => exact .error h.symm

theorem Alike.trans {x y z : Except Fault α} (h : Alike x y) (h' : Alike y z) : Alike x z := by
  cases h with
  | ok a => exact h'
  | error h =>
    cases h' with
    | error h' => exact .error (h.trans h')

theorem Alike.map (f : α → β) {x y : Except Fault α} (h : Alike x y) :
    Alike (x.map f) (y.map f) := by
  cases h with
  | ok a => exact .ok (f a)
  | error h => exact .error h

theorem alike_ok_iff {x : Except Fault α} {a : α} : Alike x (.ok a) ↔ x = .ok a := by
  constructor
  · intro h
    cases h with
    | ok => rfl
  · rintro rfl
    exact .ok a

end

/-- There are no more records from here. -/
abbrev AtEnd (b : List UInt8) : Prop := b = [] ∨ b.head? = some sectionDelimiter

/-! The operations where all bytes are there: the answer, and the bytes that are left. -/

namespace Whole

def item {α : Type} (scan : List UInt8 → Scan α) (b : List UInt8) :
    Except Fault α × List UInt8 :=
  match scan b with
  | .done a rest => (.ok a, rest)
  | .malformed problem => (.error (.malformedRecord 0 problem), b)
  | .bad fault => (.error fault, b)
  | .short => (.error (.truncatedRecord b.length), b)

def record (b : List UInt8) : Except Fault (Option Record) × List UInt8 :=
  if AtEnd b then (.ok none, b)
  else ((item Record.scan b).1.map some, (item Record.scan b).2)

def entry (b : List UInt8) : Except Fault (Option Entry) × List UInt8 :=
  if b = [] then (.ok none, b)
  else ((item Entry.scan b).1.map some, (item Entry.scan b).2)

def atDelimiter (b : List UInt8) : Except Fault Bool × List UInt8 :=
  (.ok (b.head? = some sectionDelimiter), b)

def skipDelimiter (b : List UInt8) : Except Fault Bool × List UInt8 :=
  if b.head? = some sectionDelimiter then
    if b.tail = [] then (.ok true, [])
    else if b.tail.head? = some lineEnd then (.ok true, b.tail.tail)
    else (.error (.malformedRecord 0 .delimiterNotAlone), b.tail)
  else (.ok false, b)

theorem skipDelimiter_cons (b : List UInt8) :
    skipDelimiter (sectionDelimiter :: b) =
      if b = [] then (.ok true, [])
      else if b.head? = some lineEnd then (.ok true, b.tail)
      else (.error (.malformedRecord 0 .delimiterNotAlone), b) := rfl

end Whole

namespace Reader

/-- What an operation of a reader does: it answers like the operation on all bytes and leaves the
same bytes, or it answers with the failure of a read call and leaves all of them. -/
inductive Follows {α : Type} (r : Reader) (whole : Except Fault α × List UInt8) :
    Reader × Except Fault α → Prop where
  | answer {r' : Reader} {used : List UInt8} {a : Except Fault α} (h : r.Uses used r')
      (hrest : r'.pending = whole.2) (ha : Alike a whole.1) : Follows r whole (r', a)
  | failure {r' : Reader} {reason : String} (h : r.Uses [] r')
      (hreason : Part.failure reason ∈ r.source) : Follows r whole (r', .error (.source reason))

variable {α β : Type} {r r' : Reader}

theorem Follows.of_uses {whole : Except Fault α × List UInt8} {x : Reader × Except Fault α}
    (h : r.Uses [] r') (hx : Follows r' whole x) : Follows r whole x := by
  cases hx with
  | answer hu hrest ha => exact .answer (h.trans hu) hrest ha
  | failure hu hreason => exact .failure (h.trans hu) (h.failsWithin _ hreason)

theorem Follows.sound {whole : Except Fault α × List UInt8} {x : Reader × Except Fault α}
    (h : Follows r whole x) : x.1.Sound := by
  cases h with
  | answer h => exact h.sound
  | failure h => exact h.sound

theorem Follows.map (f : α → β) {whole : Except Fault α × List UInt8} {a : Except Fault α}
    (h : Follows r whole (r', a)) : Follows r (whole.1.map f, whole.2) (r', a.map f) := by
  cases h with
  | answer hu hrest ha => exact .answer hu hrest (ha.map f)
  | failure hu hreason => exact .failure hu hreason

/-- Without a failure of the source, the answer is that of the operation on all bytes. -/
theorem Follows.of_reliable {whole : Except Fault α × List UInt8} {a : Except Fault α}
    (h : Follows r whole (r', a)) (hr : r.source.Reliable) :
    ∃ used, r.Uses used r' ∧ r'.pending = whole.2 ∧ Alike a whole.1 := by
  cases h with
  | answer hu hrest ha => exact ⟨_, hu, hrest, ha⟩
  | failure _ hreason => exact absurd hreason (hr _)

/-- What a scan finds in the buffer it finds in all that is still to come. -/
theorem persists_pending {scan : List UInt8 → Scan α} (hstable : Scan.Stable scan) (r : Reader) :
    Scan.Persists r.source.bytes (scan r.unread) (scan r.pending) := hstable _ _

/-- An answer for the buffered bytes is the answer for all bytes, since these stand behind them. -/
theorem follows_readItem {scan : List UInt8 → Scan α} (hstable : Scan.Stable scan)
    (hsuffix : ∀ b a rest, scan b = .done a rest → rest <:+ b) (h : r.Sound) :
    r.Follows (Whole.item scan r.pending) (r.readItem scan) := by
  fun_induction readItem scan r with
  | case1 r a rest hs =>
    obtain ⟨used, hused⟩ := hsuffix _ _ _ hs
    have hp := persists_pending hstable r
    rw [hs] at hp
    unfold Whole.item
    generalize scan r.pending = w at hp
    cases hp with
    | done => exact .answer (uses_advanceTo h hused.symm) rfl (.ok a)
  | case2 r problem hs =>
    have hp := persists_pending hstable r
    rw [hs] at hp
    unfold Whole.item
    generalize scan r.pending = w at hp
    cases hp with
    | malformed => exact .answer (.refl h) rfl (.error (.malformed _ _ _ _))
  | case3 r fault hs =>
    have hp := persists_pending hstable r
    rw [hs] at hp
    unfold Whole.item
    generalize scan r.pending = w at hp
    cases hp with
    | bad halike => exact .answer (.refl h) rfl (.error halike)
  | case4 r hs r₁ hr ih =>
    have hrefill := refills_refill h
    rw [hr] at hrefill
    cases hrefill with
    | more hu _ _ =>
      have hpending : r.pending = r₁.pending := hu.pending
      rw [hpending]
      exact (ih hu.sound).of_uses hu
  | case5 r hs r₁ hr =>
    have hrefill := refills_refill h
    rw [hr] at hrefill
    cases hrefill with
    | ended hu hunread hall =>
      have hw : Whole.item scan r.pending =
          (.error (.truncatedRecord r₁.unread.length), r.pending) := by
        rw [Whole.item, hall, hs, hunread]
      rw [hw]
      exact .answer hu hu.pending.symm (.refl _)
  | case6 r hs r₁ fault hr =>
    have hrefill := refills_refill h
    rw [hr] at hrefill
    cases hrefill with
    | failure hu _ hreason => exact .failure hu hreason

theorem Record.suffix_of_scan (b : List UInt8) (record : Record) (rest : List UInt8)
    (h : Record.scan b = .done record rest) : rest <:+ b := by
  obtain ⟨_, _, _, _, _, _, _, rfl⟩ := Record.scan_eq_done_iff.mp h
  exact List.suffix_append _ _

theorem Entry.suffix_of_scan (b : List UInt8) (entry : Entry) (rest : List UInt8)
    (h : Entry.scan b = .done entry rest) : rest <:+ b := by
  obtain ⟨_, _, _, rfl⟩ := Entry.scan_eq_done_iff.mp h
  exact List.suffix_append _ _

theorem follows_readRecord (h : r.Sound) : r.Follows (Whole.record r.pending) r.readRecord := by
  have hc := checks_ensureAvailable h
  unfold readRecord
  generalize r.ensureAvailable = x at hc
  cases hc with
  | failure hu hreason => exact .failure hu hreason
  | ended hu hnil =>
    rw [Whole.record, if_pos (.inl hnil)]
    exact .answer hu hu.pending.symm (.ok none)
  | @available r₁ hu hne =>
    have hpending : r.pending = r₁.pending := hu.pending
    have hhead := hu.head?_unread hne
    dsimp only
    split
    · rename_i hd
      rw [Whole.record, if_pos (.inr (hhead ▸ hd))]
      exact .answer hu hpending.symm (.ok none)
    · rename_i hd
      have hnot : ¬AtEnd r.pending := by
        rintro (hnil | hd')
        · rw [hnil] at hhead
          exact hne (List.head?_eq_none_iff.mp hhead)
        · exact hd (hhead.trans hd')
      rw [Whole.record, if_neg hnot]
      have hitem := follows_readItem Record.stable_scan Record.suffix_of_scan hu.sound
      rw [hpending]
      generalize r₁.readItem Record.scan = y at hitem
      obtain ⟨r₂, answer⟩ := y
      have hsome := (hitem.map some).of_uses hu
      cases answer with
      | ok record => exact hsome
      | error fault => exact hsome

theorem follows_readEntry (h : r.Sound) : r.Follows (Whole.entry r.pending) r.readEntry := by
  have hc := checks_ensureAvailable h
  unfold readEntry
  generalize r.ensureAvailable = x at hc
  cases hc with
  | failure hu hreason => exact .failure hu hreason
  | ended hu hnil =>
    rw [Whole.entry, if_pos hnil]
    exact .answer hu hu.pending.symm (.ok none)
  | @available r₁ hu hne =>
    have hpending : r.pending = r₁.pending := hu.pending
    rw [hpending, Whole.entry, if_neg (pending_ne_nil hne)]
    have hitem := follows_readItem Entry.stable_scan Entry.suffix_of_scan hu.sound
    dsimp only
    generalize r₁.readItem Entry.scan = y at hitem
    obtain ⟨r₂, answer⟩ := y
    have hsome := (hitem.map some).of_uses hu
    cases answer with
    | ok entry => exact hsome
    | error fault => exact hsome

inductive Looks (r : Reader) : Reader × Except Fault Bool → Prop where
  | delimiter {r' : Reader} (h : r.Uses [] r') {rest : List UInt8}
      (hunread : r'.unread = sectionDelimiter :: rest) : Looks r (r', .ok true)
  | other {r' : Reader} (h : r.Uses [] r')
      (hhead : r.pending.head? ≠ some sectionDelimiter) : Looks r (r', .ok false)
  | failure {r' : Reader} {reason : String} (h : r.Uses [] r')
      (hreason : Part.failure reason ∈ r.source) : Looks r (r', .error (.source reason))

theorem looks_atSectionDelimiter (h : r.Sound) : r.Looks r.atSectionDelimiter := by
  have hc := checks_ensureAvailable h
  unfold atSectionDelimiter
  generalize r.ensureAvailable = x at hc
  cases hc with
  | failure hu hreason => exact .failure hu hreason
  | ended hu hnil => exact .other hu (by simp [hnil])
  | @available r₁ hu hne =>
    have hhead := hu.head?_unread hne
    obtain ⟨c, rest, hunread⟩ := List.exists_cons_of_ne_nil hne
    by_cases hd : c = sectionDelimiter
    · subst hd
      simp only [hunread, List.head?_cons, decide_true]
      exact .delimiter hu hunread
    · rw [hunread, List.head?_cons] at hhead
      simp only [hunread, List.head?_cons, Option.some.injEq, hd, decide_false]
      exact .other hu (by simpa [← hhead] using hd)

theorem follows_atSectionDelimiter (h : r.Sound) :
    r.Follows (Whole.atDelimiter r.pending) r.atSectionDelimiter := by
  have hl := looks_atSectionDelimiter h
  generalize r.atSectionDelimiter = x at hl
  cases hl with
  | failure hu hreason => exact .failure hu hreason
  | other hu hhead =>
    refine .answer hu hu.pending.symm ?_
    rw [Whole.atDelimiter, decide_eq_false hhead]
    exact .ok false
  | delimiter hu hunread =>
    have hhead := hu.head?_unread (by simp [hunread])
    refine .answer hu hu.pending.symm ?_
    rw [Whole.atDelimiter, ← hhead, hunread, List.head?_cons, decide_eq_true rfl]
    exact .ok true

theorem follows_skipSectionDelimiter (h : r.Sound) (hr : r.source.Reliable) :
    r.Follows (Whole.skipDelimiter r.pending) r.skipSectionDelimiter := by
  have hl := looks_atSectionDelimiter h
  unfold skipSectionDelimiter
  generalize r.atSectionDelimiter = x at hl
  cases hl with
  | failure hu hreason => exact absurd hreason (hr _)
  | other hu hhead =>
    rw [Whole.skipDelimiter, if_neg hhead]
    exact .answer hu hu.pending.symm (.ok false)
  | @delimiter r₁ hu rest hunread =>
    have hskip : r₁.Uses [sectionDelimiter] (r₁.advanceTo rest) :=
      uses_advanceTo hu.sound hunread
    have hdelimiter := hu.trans hskip
    have hpending : r.pending = sectionDelimiter :: (r₁.advanceTo rest).pending :=
      hdelimiter.pending
    have hc := checks_ensureAvailable hskip.sound
    rw [hpending, Whole.skipDelimiter_cons]
    simp only [hunread, List.drop_one, List.tail_cons]
    generalize (r₁.advanceTo rest).ensureAvailable = y at hc
    cases hc with
    | failure _ hreason => exact absurd hreason (hdelimiter.reliable hr _)
    | ended hend hnil =>
      rw [if_pos hnil]
      exact .answer (hdelimiter.trans hend) (hend.pending.symm.trans hnil) (.ok true)
    | @available r₂ hmore hne =>
      have hhead := hmore.head?_unread hne
      have hsame : (r₁.advanceTo rest).pending = r₂.pending := hmore.pending
      have hnil : (r₁.advanceTo rest).pending ≠ [] := hsame ▸ pending_ne_nil hne
      rw [if_neg hnil]
      dsimp only
      split
      · rename_i hend
        rw [if_pos (hhead ▸ hend)]
        obtain ⟨c, more, hc⟩ := List.exists_cons_of_ne_nil hne
        have hline : r₂.Uses [c] (r₂.advanceTo more) := uses_advanceTo hmore.sound hc
        rw [hc]
        refine .answer ((hdelimiter.trans hmore).trans hline) ?_ (.ok true)
        rw [hsame, hline.pending]
        rfl
      · rename_i hend
        rw [if_neg (hhead ▸ hend)]
        exact .answer (hdelimiter.trans hmore) hsame.symm (.error (.malformed _ _ _ _))

end Reader

end WorkloadReplay.Trace
