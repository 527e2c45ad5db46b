import WorkloadReplay.Proofs.RepeatedReads

/-!
# Skipping the section delimiter

The delimiter is used up before the byte behind it is there. Skipping the line is therefore all or
nothing, but for two places: a read call that fails right behind the delimiter, and a byte behind it
that does not end the line. Both leave the reader inside of the line. Where the bytes before,
between and behind the failures of the source stand (`stretches`) tells these places from all
others.
-/

namespace WorkloadReplay.Trace

namespace Source

/-- The bytes in front of each call that fails, and those behind the last one. -/
def stretches : Source → List (List UInt8)
  | [] => [[]]
  | .bytes b :: rest => (stretches rest).modifyHead (b ++ ·)
  | .interrupted :: rest => stretches rest
  | .failure _ :: rest => [] :: stretches rest

theorem modifyHead_self (l : List (List UInt8)) : l.modifyHead (fun b => b) = l :=
  congrFun List.modifyHead_id l

theorem stretches_ne_nil (s : Source) : s.stretches ≠ [] := by
  fun_induction stretches s with
  | case1 => simp
  | case2 b rest ih => simpa using ih
  | case3 rest ih => exact ih
  | case4 => simp

theorem flatten_stretches (s : Source) : s.stretches.flatten = s.bytes := by
  fun_induction stretches s with
  | case1 => rfl
  | case2 b rest ih =>
    obtain ⟨c, more, hc⟩ := List.exists_cons_of_ne_nil (stretches_ne_nil rest)
    rw [hc] at ih ⊢
    simp [bytes, ← ih]
  | case3 rest ih => exact ih
  | case4 reason rest ih => simpa [bytes] using ih

theorem stretches_read_bytes {room : Nat} {s t : Source} {b : List UInt8}
    (h : read room s = (.bytes b, t)) : s.stretches = t.stretches.modifyHead (b ++ ·) := by
  fun_induction read room s with
  | case1 =>
    cases h
    rfl
  | case2 rest ih => simpa [stretches, modifyHead_self] using ih h
  | case3 c cs rest =>
    cases h
    simp [stretches, Function.comp_def, ← List.append_assoc]
  | case4 => cases h
  | case5 => cases h

theorem stretches_read_interrupted {room : Nat} {s t : Source}
    (h : read room s = (.interrupted, t)) : s.stretches = t.stretches := by
  fun_induction read room s with
  | case1 => cases h
  | case2 rest ih => simpa [stretches, modifyHead_self] using ih h
  | case3 => cases h
  | case4 rest =>
    cases h
    rfl
  | case5 => cases h

theorem stretches_read_failure {room : Nat} {s t : Source} {reason : String}
    (h : read room s = (.failure reason, t)) : s.stretches = [] :: t.stretches := by
  fun_induction read room s with
  | case1 => cases h
  | case2 rest ih => simpa [stretches, modifyHead_self] using ih h
  | case3 => cases h
  | case4 => cases h
  | case5 reason rest =>
    cases h
    rfl

theorem stretches_fetch_ok {room : Nat} {s t : Source} {b : List UInt8}
    (h : fetch room s = (.ok b, t)) : s.stretches = t.stretches.modifyHead (b ++ ·) := by
  fun_induction fetch room s with
  | case1 s u hr ih => rw [stretches_read_interrupted hr, ih h]
  | case2 s c u hr =>
    cases h
    exact stretches_read_bytes hr
  | case3 => cases h

theorem stretches_fetch_error {room : Nat} {s t : Source} {reason : String}
    (h : fetch room s = (.error reason, t)) : s.stretches = [] :: t.stretches := by
  fun_induction fetch room s with
  | case1 s u hr ih => rw [stretches_read_interrupted hr, ih h]
  | case2 => cases h
  | case3 s reason u hr =>
    cases h
    exact stretches_read_failure hr

end Source

namespace Reader

variable {r r' : Reader}

/-- The bytes in front of each read call that fails, from the first unread one. -/
def stretches (r : Reader) : List (List UInt8) := r.source.stretches.modifyHead (r.unread ++ ·)

theorem stretches_ne_nil (r : Reader) : r.stretches ≠ [] := by
  simpa [stretches] using r.source.stretches_ne_nil

theorem flatten_stretches (r : Reader) : r.stretches.flatten = r.pending := by
  obtain ⟨b, more, hb⟩ := List.exists_cons_of_ne_nil r.source.stretches_ne_nil
  have hbytes := r.source.flatten_stretches
  rw [hb] at hbytes
  simp [stretches, pending, hb, ← hbytes]

theorem Uses.pending_eq_nil {used : List UInt8} (h : r.Uses used r')
    (hs : r.stretches = [used]) : r'.pending = [] := by
  simpa [hs, h.pending] using r.flatten_stretches.symm

theorem stretches_advanceTo {used rest : List UInt8} (hb : r.unread = used ++ rest) :
    r.stretches = (r.advanceTo rest).stretches.modifyHead (used ++ ·) := by
  simp [stretches, advanceTo, hb, Function.comp_def]

theorem exists_stretches_of_unread {c : UInt8} {rest : List UInt8} (hb : r.unread = c :: rest) :
    ∃ b more, r.stretches = (c :: b) :: more := by
  obtain ⟨b, more, hs⟩ := List.exists_cons_of_ne_nil r.source.stretches_ne_nil
  exact ⟨rest ++ b, more, by simp [stretches, hs, hb]⟩

/-- What making sure of an unread byte does to the bytes between the failures. -/
inductive Obtains (r : Reader) : Reader × Except Fault Bool → Prop where
  | available {r' : Reader} {c : UInt8} {rest : List UInt8} (h : r.Uses [] r')
      (hunread : r'.unread = c :: rest) (hstretches : r'.stretches = r.stretches) :
      Obtains r (r', .ok true)
  | ended {r' : Reader} (h : r.Uses [] r') (hstretches : r.stretches = [[]]) :
      Obtains r (r', .ok false)
  | failure {r' : Reader} {reason : String} (h : r.Uses [] r')
      (hstretches : r.stretches = [] :: r'.stretches) : Obtains r (r', .error (.source reason))

theorem obtains_refill (h : r.Sound) (hnil : r.unread = []) : r.Obtains r.refill := by
  have hu := refills_refill h
  cases hended : r.ended with
  | true =>
    rw [refill_of_ended hended]
    exact .ended (.refl h) (by simp [stretches, h.ended hended, Source.stretches, hnil])
  | false =>
    have hroom := room_makeRoom h
    have hf := Source.fetches_fetch (r.makeRoom.capacity - r.makeRoom.unread.length) r.source
    rw [refill_of_not_ended hended] at hu ⊢
    generalize hx : Source.fetch _ r.source = x at hu hf
    cases hf with
    | @failure reason t _ _ =>
      have hs := Source.stretches_fetch_error hx
      cases hu with
      | failure hu =>
        exact .failure hu (by simp [stretches, makeRoom, hnil, hs, Source.modifyHead_self])
    | @bytes b t hleaves hlen hend =>
      have hs := Source.stretches_fetch_ok hx
      cases b with
      | nil =>
        cases hu with
        | ended hu =>
          have ht : t = [] := hend (by omega) rfl
          exact .ended hu (by simp [stretches, hnil, hs, ht, Source.stretches])
      | cons c b =>
        cases hu with
        | more hu =>
          exact .available hu (congrArg (· ++ c :: b) hnil)
            (by simp [stretches, makeRoom, hnil, hs, Function.comp_def])

theorem obtains_ensureAvailable (h : r.Sound) : r.Obtains r.ensureAvailable := by
  cases hunread : r.unread with
  | nil =>
    rw [ensureAvailable, if_pos (by simp [hunread])]
    exact obtains_refill h hunread
  | cons c rest =>
    rw [ensureAvailable, if_neg (by simp [hunread])]
    exact .available (.refl h) hunread rfl

/-- What skipping the delimiter does, by what stands in front of the next call that fails. -/
inductive Skips (r : Reader) : Reader × Except Fault Bool → Prop where
  | line {r' : Reader} {b : List UInt8} {more : List (List UInt8)}
      (h : r.Uses [sectionDelimiter, lineEnd] r')
      (hs : r.stretches = (sectionDelimiter :: lineEnd :: b) :: more) : Skips r (r', .ok true)
  | atEnd {r' : Reader} (h : r.Uses [sectionDelimiter] r')
      (hs : r.stretches = [[sectionDelimiter]]) : Skips r (r', .ok true)
  | other {r' : Reader} {c : UInt8} {b : List UInt8} {more : List (List UInt8)} (h : r.Uses [] r')
      (hc : c ≠ sectionDelimiter) (hs : r.stretches = (c :: b) :: more) : Skips r (r', .ok false)
  | nothing {r' : Reader} (h : r.Uses [] r') (hs : r.stretches = [[]]) : Skips r (r', .ok false)
  | failed {r' : Reader} {reason : String} (h : r.Uses [] r')
      (hs : r.stretches = [] :: r'.stretches) : Skips r (r', .error (.source reason))
  | cutOff {r' : Reader} {reason : String} (h : r.Uses [sectionDelimiter] r')
      (hs : r.stretches = [sectionDelimiter] :: r'.stretches) :
      Skips r (r', .error (.source reason))
  | crowded {r' : Reader} {c : UInt8} {b : List UInt8} {more : List (List UInt8)}
      (h : r.Uses [sectionDelimiter] r') (hc : c ≠ lineEnd)
      (hs : r.stretches = (sectionDelimiter :: c :: b) :: more) :
      Skips r (r', .error (.malformedRecord r'.cursor .delimiterNotAlone))

/-- Behind the delimiter that is used up, the byte that ends the line is asked for. -/
theorem skips_behind_delimiter {rest : List UInt8} {r₁ : Reader} (h : r.Uses [] r₁)
    (hs : r₁.stretches = r.stretches) (hunread : r₁.unread = sectionDelimiter :: rest) :
    r.Skips (match (r₁.advanceTo rest).ensureAvailable with
      | (r, .error fault) => (r, .error fault)
      | (r, .ok false) => (r, .ok true)
      | (r, .ok true) =>
        if r.unread.head? = some lineEnd then (r.advanceTo (r.unread.drop 1), .ok true)
        else (r, .error (.malformedRecord r.cursor .delimiterNotAlone))) := by
  have hdelimiter : r.Uses [sectionDelimiter] (r₁.advanceTo rest) :=
    h.trans (uses_advanceTo h.sound hunread)
  have hadvance : r₁.stretches =
      (r₁.advanceTo rest).stretches.modifyHead ([sectionDelimiter] ++ ·) :=
    stretches_advanceTo hunread
  rw [hadvance] at hs
  have ho := obtains_ensureAvailable hdelimiter.sound
  generalize (r₁.advanceTo rest).ensureAvailable = x at ho
  cases ho with
  | failure hu hfailed => exact .cutOff (hdelimiter.trans hu) (by simp [← hs, hfailed])
  | ended hu hend => exact .atEnd (hdelimiter.trans hu) (by simp [← hs, hend])
  | @available r₂ c more hu hc hsame =>
    obtain ⟨b, later, hb⟩ := exists_stretches_of_unread hc
    rw [← hsame, hb, List.modifyHead_cons] at hs
    simp only [hc, List.head?_cons, Option.some.injEq, List.drop_one, List.tail_cons]
    split
    · rename_i hline
      subst hline
      have hend : r₂.Uses [lineEnd] (r₂.advanceTo more) := uses_advanceTo hu.sound hc
      exact .line ((hdelimiter.trans hu).trans hend) hs.symm
    · rename_i hline
      exact .crowded (hdelimiter.trans hu) hline hs.symm

theorem skips_skipSectionDelimiter (h : r.Sound) : r.Skips r.skipSectionDelimiter := by
  have ho := obtains_ensureAvailable h
  unfold skipSectionDelimiter atSectionDelimiter
  generalize r.ensureAvailable = x at ho
  cases ho with
  | failure hu hs => exact .failed hu hs
  | ended hu hs => exact .nothing hu hs
  | @available r₁ c rest hu hunread hs =>
    by_cases hc : c = sectionDelimiter
    · subst hc
      simp only [hunread, List.head?_cons, decide_true, List.drop_succ_cons, List.drop_zero]
      exact skips_behind_delimiter hu hs hunread
    · obtain ⟨b, more, hb⟩ := exists_stretches_of_unread hunread
      simp only [hunread, List.head?_cons, Option.some.injEq, hc, decide_false]
      exact .other hu hc (hs.symm.trans hb)

/-! ### All or nothing -/

/-- The line of the delimiter is used up, or nothing is. -/
inductive Atomic (r : Reader) : Reader × Except Fault Bool → Prop where
  | line {r' : Reader} (h : r.Uses [sectionDelimiter, lineEnd] r') : Atomic r (r', .ok true)
  | atEnd {r' : Reader} (h : r.Uses [sectionDelimiter] r') (hend : r'.pending = []) :
      Atomic r (r', .ok true)
  | kept {r' : Reader} {answer : Except Fault Bool} (h : r.Uses [] r')
      (hanswer : answer ≠ .ok true) : Atomic r (r', answer)

/-- A read call fails right behind the delimiter. -/
def CutOff (r : Reader) : Prop :=
  ∃ more, more ≠ [] ∧ r.stretches = [sectionDelimiter] :: more

/-- A byte behind the delimiter does not end its line. -/
def Crowded (r : Reader) : Prop :=
  ∃ c b more, c ≠ lineEnd ∧ r.stretches = (sectionDelimiter :: c :: b) :: more

theorem Skips.atomic_or_torn {x : Reader × Except Fault Bool} (hx : r.Skips x) :
    r.Atomic x ∧ ¬ (r.CutOff ∨ r.Crowded) ∨
      (r.CutOff ∨ r.Crowded) ∧ r.Uses [sectionDelimiter] x.1 ∧ ∃ fault, x.2 = .error fault := by
  cases hx with
  | line h hs => exact .inl ⟨.line h, by simp [CutOff, Crowded, hs]⟩
  | atEnd h hs => exact .inl ⟨.atEnd h (h.pending_eq_nil hs), by simp [CutOff, Crowded, hs]⟩
  | other h hc hs => exact .inl ⟨.kept h nofun, by simp [CutOff, Crowded, hs, hc]⟩
  | nothing h hs => exact .inl ⟨.kept h nofun, by simp [CutOff, Crowded, hs]⟩
  | failed h hs => exact .inl ⟨.kept h nofun, by simp [CutOff, Crowded, hs]⟩
  | @cutOff r' _ h hs => exact .inr ⟨.inl ⟨_, r'.stretches_ne_nil, hs⟩, h, _, rfl⟩
  | crowded h hc hs => exact .inr ⟨.inr ⟨_, _, _, hc, hs⟩, h, _, rfl⟩

theorem Atomic.not_uses {x : Reader × Except Fault Bool} {fault : Fault} (hx : r.Atomic x)
    (h : r.Uses [sectionDelimiter] x.1) : x.2 ≠ .error fault := by
  cases hx with
  | line => exact nofun
  | atEnd => exact nofun
  | kept hkept =>
    have hconsumed := hkept.consumed.symm.trans h.consumed
    simp at hconsumed

theorem atomic_skipSectionDelimiter_iff (h : r.Sound) :
    r.Atomic r.skipSectionDelimiter ↔ ¬ (r.CutOff ∨ r.Crowded) := by
  rcases (skips_skipSectionDelimiter h).atomic_or_torn with ⟨hatomic, hnot⟩ | ⟨htorn, hu, _, hx⟩
  · exact iff_of_true hatomic hnot
  · exact iff_of_false (fun hatomic => hatomic.not_uses hu hx) (not_not_intro htorn)

/-! ### Repeated calls -/

/-- Skipping is repeated until no read call fails. -/
inductive Repeats : Reader → Reader × Except Fault Bool → Prop where
  | settled {r : Reader} (h : ¬ ReadFails r.skipSectionDelimiter.2) :
      Repeats r r.skipSectionDelimiter
  | again {r : Reader} {x : Reader × Except Fault Bool} (h : ReadFails r.skipSectionDelimiter.2)
      (hx : Repeats r.skipSectionDelimiter.1 x) : Repeats r x

/-- The answer, and what is used up with it, are those of a reader of the same bytes whose source
does not fail. -/
def AsUnfailing (r : Reader) (x : Reader × Except Fault Bool) : Prop :=
  ∀ q : Reader, q.Sound → q.source.Reliable → q.pending = r.pending → q.consumed = r.consumed →
    Alike x.2 q.skipSectionDelimiter.2 ∧ x.1.consumed = q.skipSectionDelimiter.1.consumed

/-- A read call fails right behind the delimiter, which no other byte precedes. -/
inductive Severed : List (List UInt8) → Prop where
  | here {more : List (List UInt8)} (h : more ≠ []) : Severed ([sectionDelimiter] :: more)
  | later {more : List (List UInt8)} (h : Severed more) : Severed ([] :: more)

theorem severed_nil_cons {more : List (List UInt8)} : Severed ([] :: more) ↔ Severed more :=
  ⟨fun | .later h => h, .later⟩

theorem Uses.consumed_add_length {used : List UInt8} (h : r.Uses used r') :
    r'.consumed + r'.pending.length = r.consumed + r.pending.length := by
  rw [h.consumed, h.pending, List.length_append, Nat.add_assoc]

theorem sound_onSource_parts (h : r.Sound) : (r.onSource (r.source.parts.map .bytes)).Sound :=
  ⟨h.unread_le, h.filled_le, h.capacity_pos, fun hended => by
    simp [onSource, h.ended hended, Source.parts]⟩

theorem pending_onSource_parts (r : Reader) :
    (r.onSource (r.source.parts.map .bytes)).pending = r.pending := by
  have hparts := (Source.delivers_map_bytes_parts r.source).parts
  simp only [pending, onSource]
  rw [Source.bytes_eq_flatten_parts, hparts, ← Source.bytes_eq_flatten_parts]

/-- A reader of the same bytes whose source does not fail answers as is right for all bytes. -/
theorem asUnfailing_iff (h : r.Sound) {x : Reader × Except Fault Bool} :
    r.AsUnfailing x ↔ Alike x.2 (Whole.skipDelimiter r.pending).1 ∧
      x.1.consumed + (Whole.skipDelimiter r.pending).2.length = r.consumed + r.pending.length := by
  have hright {q : Reader} (hq : q.Sound) (hreliable : q.source.Reliable) :
      Alike q.skipSectionDelimiter.2 (Whole.skipDelimiter q.pending).1 ∧
        q.skipSectionDelimiter.1.consumed + (Whole.skipDelimiter q.pending).2.length =
          q.consumed + q.pending.length := by
    obtain ⟨used, hu, hrest, halike⟩ :=
      (follows_skipSectionDelimiter hq hreliable).of_reliable hreliable
    exact ⟨halike, hrest ▸ hu.consumed_add_length⟩
  constructor
  · intro hx
    have hq := sound_onSource_parts h
    have hreliable := (Source.delivers_map_bytes_parts r.source).reliable
    obtain ⟨halike, hconsumed⟩ := hx _ hq hreliable r.pending_onSource_parts rfl
    obtain ⟨hwhole, htotal⟩ := hright hq hreliable
    rw [pending_onSource_parts] at hwhole htotal
    exact ⟨halike.trans hwhole, hconsumed ▸ htotal⟩
  · rintro ⟨halike, hconsumed⟩ q hq hreliable hpending hsame
    obtain ⟨hwhole, htotal⟩ := hright hq hreliable
    rw [hpending] at hwhole htotal
    rw [hsame] at htotal
    exact ⟨halike.trans hwhole.symm, by omega⟩

theorem asUnfailing_of_uses {used : List UInt8} {answer whole : Except Fault Bool} (h : r.Sound)
    (hu : r.Uses used r') (hwhole : Whole.skipDelimiter r.pending = (whole, r'.pending))
    (halike : Alike answer whole) : r.AsUnfailing (r', answer) := by
  rw [asUnfailing_iff h, hwhole]
  exact ⟨halike, hu.consumed_add_length⟩

/-- A call in which no read call fails answers as is right for all bytes. -/
theorem Skips.asUnfailing {x : Reader × Except Fault Bool} (h : r.Sound) (hx : r.Skips x)
    (hsettled : ¬ ReadFails x.2) : r.AsUnfailing x := by
  have hflatten := r.flatten_stretches
  cases hx with
  | line hu hs =>
    refine asUnfailing_of_uses h hu ?_ (.ok true)
    rw [hu.pending]
    rfl
  | atEnd hu hs =>
    refine asUnfailing_of_uses h hu ?_ (.ok true)
    rw [hu.pending, hu.pending_eq_nil hs]
    rfl
  | @other r' c b more hu hc hs =>
    have hhead : r.pending.head? ≠ some sectionDelimiter := by simp [← hflatten, hs, hc]
    refine asUnfailing_of_uses h hu ?_ (.ok false)
    rw [Whole.skipDelimiter, if_neg hhead, hu.pending, List.nil_append]
  | nothing hu hs =>
    refine asUnfailing_of_uses h hu ?_ (.ok false)
    rw [hu.pending, hu.pending_eq_nil hs]
    rfl
  | failed hu hs => exact absurd ⟨_, rfl⟩ hsettled
  | cutOff hu hs => exact absurd ⟨_, rfl⟩ hsettled
  | @crowded r' c b more hu hc hs =>
    have hpending : r'.pending = c :: (b ++ more.flatten) := by
      simpa [hs, hu.pending] using hflatten.symm
    refine asUnfailing_of_uses h hu ?_ (.error (.malformed _ 0 _ .delimiterNotAlone))
    rw [hu.pending, List.singleton_append, Whole.skipDelimiter_cons, hpending]
    simp [hc]

theorem Skips.not_severed {x : Reader × Except Fault Bool} (hx : r.Skips x)
    (hsettled : ¬ ReadFails x.2) : ¬ Severed r.stretches := by
  intro hsevered
  cases hx with
  | line _ hs | crowded _ _ hs =>
    rw [hs] at hsevered
    cases hsevered
  | nothing _ hs =>
    rw [hs] at hsevered
    cases severed_nil_cons.mp hsevered
  | atEnd _ hs =>
    rw [hs] at hsevered
    obtain ⟨hnil⟩ := hsevered
    exact hnil rfl
  | other _ hc hs =>
    rw [hs] at hsevered
    obtain ⟨⟩ := hsevered
    exact hc rfl
  | failed => exact hsettled ⟨_, rfl⟩
  | cutOff => exact hsettled ⟨_, rfl⟩

theorem sound_skipSectionDelimiter (h : r.Sound) : r.skipSectionDelimiter.1.Sound := by
  have hx := skips_skipSectionDelimiter h
  generalize r.skipSectionDelimiter = x at hx
  cases hx with
  | line hu | atEnd hu | other hu | nothing hu | failed hu | cutOff hu | crowded hu =>
    exact hu.sound

/-- Every call that fails leaves one failure less, so repeating comes to an end. -/
theorem exists_repeats (h : r.Sound) : ∃ x, Repeats r x := by
  induction hn : r.stretches.length generalizing r with
  | zero => exact absurd (List.length_eq_zero_iff.mp hn) r.stretches_ne_nil
  | succ n ih =>
    by_cases hfails : ReadFails r.skipSectionDelimiter.2
    · have hlen : r.skipSectionDelimiter.1.stretches.length = n := by
        have hx := skips_skipSectionDelimiter h
        generalize r.skipSectionDelimiter = x at hx hfails
        cases hx with
        | failed _ hs | cutOff _ hs => simpa [hs] using hn
        | line | atEnd | other | nothing | crowded => exact absurd hfails nofun
      obtain ⟨x, hx⟩ := ih (sound_skipSectionDelimiter h) hlen
      exact ⟨x, .again hfails hx⟩
    · exact ⟨_, .settled hfails⟩

/-- Where the delimiter does not stand first, repeated calls answer that it is not there; where it
does, they use it up at least. -/
theorem Repeats.bounds {x : Reader × Except Fault Bool} (hx : Repeats r x) (h : r.Sound) :
    r.consumed ≤ x.1.consumed ∧
      (r.pending.head? = some sectionDelimiter → r.consumed < x.1.consumed) ∧
      (r.pending.head? ≠ some sectionDelimiter → x.2 = .ok false) := by
  induction hx with
  | @settled r hsettled =>
    have hs := skips_skipSectionDelimiter h
    have hflatten := r.flatten_stretches
    generalize r.skipSectionDelimiter = x at hs hsettled
    cases hs with
    | line hu hs | atEnd hu hs | crowded hu _ hs => simp [hu.consumed, hu.pending]
    | other hu hc hs => simp [hu.consumed, ← hflatten, hs, hc]
    | nothing hu hs => simp [hu.consumed, ← hflatten, hs]
    | failed => exact absurd ⟨_, rfl⟩ hsettled
    | cutOff => exact absurd ⟨_, rfl⟩ hsettled
  | @again r x hfails hx ih =>
    have hs := skips_skipSectionDelimiter h
    have ih := ih (sound_skipSectionDelimiter h)
    clear hx
    generalize r.skipSectionDelimiter = y at hs hfails ih
    cases hs with
    | failed hu _ => simpa [hu.consumed, hu.pending] using ih
    | @cutOff r' _ hu _ =>
      have hconsumed : r'.consumed = r.consumed + 1 := hu.consumed
      have hle : r'.consumed ≤ x.1.consumed := ih.1
      refine ⟨by omega, fun _ => by omega, fun hhead => ?_⟩
      simp [hu.pending] at hhead
    | line | atEnd | other | nothing | crowded => exact absurd hfails nofun

/-- Once the delimiter alone is used up, repeating does not come back to the right answer. -/
theorem Repeats.not_asUnfailing {x : Reader × Except Fault Bool} (hx : Repeats r' x)
    (h : r.Sound) (hu : r.Uses [sectionDelimiter] r') : ¬ r.AsUnfailing x := by
  obtain ⟨-, hlt, hfalse⟩ := hx.bounds hu.sound
  have htotal := hu.consumed_add_length
  rw [asUnfailing_iff h, hu.pending, List.singleton_append, Whole.skipDelimiter_cons]
  rw [hu.pending] at htotal
  rintro ⟨halike, hconsumed⟩
  by_cases hhead : r'.pending.head? = some sectionDelimiter
  · have hlt := hlt hhead
    have hne : r'.pending ≠ [] := by
      rintro hnil
      simp [hnil] at hhead
    have hline : r'.pending.head? ≠ some lineEnd := by simp [hhead, sectionDelimiter, lineEnd]
    simp only [if_neg hne, if_neg hline, List.singleton_append] at hconsumed htotal
    omega
  · rw [hfalse hhead] at halike
    split at halike
    · cases halike
    · split at halike <;> cases halike

/-- Repeated calls come to the answer of a source that does not fail, unless a call fails right
behind the delimiter. -/
theorem Repeats.asUnfailing_iff {x : Reader × Except Fault Bool} (hx : Repeats r x)
    (h : r.Sound) : r.AsUnfailing x ↔ ¬ Severed r.stretches := by
  induction hx with
  | @settled r hsettled =>
    have hskips := skips_skipSectionDelimiter h
    exact iff_of_true (hskips.asUnfailing h hsettled) (hskips.not_severed hsettled)
  | @again r x hfails hx ih =>
    have hskips := skips_skipSectionDelimiter h
    have ih := ih (sound_skipSectionDelimiter h)
    generalize r.skipSectionDelimiter = y at hskips hfails hx ih
    cases hskips with
    | failed hu hs =>
      rw [hs, severed_nil_cons, ← ih]
      simp [AsUnfailing, hu.pending, hu.consumed]
    | @cutOff r' _ hu hs =>
      rw [hs]
      exact iff_of_false (hx.not_asUnfailing h hu)
        (not_not_intro (.here r'.stretches_ne_nil))
    | line | atEnd | other | nothing | crowded => exact absurd hfails nofun

/-! ### After any requests -/

theorem sound_next (h : r.Sound) : r.next.1.Sound := by
  have hrecord := (follows_readRecord h).sound
  unfold next
  split
  · exact h
  · generalize r.readRecord = x at hrecord
    obtain ⟨r', answer⟩ := x
    match answer with
    | .ok none => exact hrecord
    | .ok (some _) => exact hrecord
    | .error _ => exact ⟨hrecord.unread_le, hrecord.filled_le, hrecord.capacity_pos, hrecord.ended⟩

theorem sound_of_requests (requests : List Request) (h : r.Sound) : (r.after requests).Sound := by
  induction requests generalizing r with
  | nil => exact h
  | cons request requests ih =>
    refine ih ?_
    cases request with
    | record => exact sound_ask .record h
    | entry => exact sound_ask .entry h
    | atDelimiter => exact sound_ask .atDelimiter h
    | next => exact sound_next h
    | skipDelimiter => exact sound_skipSectionDelimiter h

/-- What skipping the delimiter does, whatever read calls of the source fail. -/
structure SkipsLine (r : Reader) : Prop where
  /-- The line is used up, or nothing is, unless a call fails or a wrong byte stands right behind
  the delimiter. -/
  atomic : r.Atomic r.skipSectionDelimiter ↔ ¬ (r.CutOff ∨ r.Crowded)
  /-- There the delimiter alone is used up. -/
  torn : r.CutOff ∨ r.Crowded →
    r.skipSectionDelimiter.1.consumed = r.consumed + 1 ∧
      ∃ fault, r.skipSectionDelimiter.2 = .error fault
  /-- Repeated calls come to an end, and to the answer of a source that does not fail, unless a call
  fails right behind the delimiter. -/
  repeated : (∃ x, Repeats r x) ∧
    ∀ x, Repeats r x → (r.AsUnfailing x ↔ ¬ Severed r.stretches)

/-- A reader that has been asked anything skips the delimiter so. -/
theorem skipsLine_after (s : Source) (capacity : Nat) (requests : List Request) :
    SkipsLine ((ofSource s capacity).after requests) := by
  have h := sound_of_requests requests (sound_ofSource s capacity)
  refine ⟨atomic_skipSectionDelimiter_iff h, fun htorn => ?_,
    exists_repeats h, fun x hx => hx.asUnfailing_iff h⟩
  rcases (skips_skipSectionDelimiter h).atomic_or_torn with ⟨-, hnot⟩ | ⟨-, hu, herror⟩
  · exact absurd htorn hnot
  · exact ⟨hu.consumed, herror⟩

/-- A call fails between the delimiter and the end of its line. -/
theorem skipSectionDelimiter_cut_off :
    let r := ofSource [.bytes (Text.bytes "#"), .failure "source failed: other",
      .bytes (Text.bytes "\n7,\"a\"\n")] defaultCapacity
    let cut := r.skipSectionDelimiter
    r.consumed = 0 ∧ cut.2 = .error (.source "source failed: other") ∧ cut.1.consumed = 1 ∧
      cut.1.skipSectionDelimiter.2 = .ok false ∧ cut.1.skipSectionDelimiter.1.consumed = 1 ∧
      (r.onSource [.bytes (Text.bytes "#\n7,\"a\"\n")]).skipSectionDelimiter.2 = .ok true := by
  decide +kernel

end Reader

end WorkloadReplay.Trace
