import WorkloadReplay.Proofs.LineGrammar

/-!
# Scans of a longer buffer

What a scan says once it is not short holds for every longer buffer: an item that was found is found
again, and what was refused is refused again, though perhaps for another reason. So it does not
matter how much of a trace is in the buffer when a scan gives its answer.
-/

namespace WorkloadReplay

/-- Two faults that differ at most in what depends on the buffer: where in it a malformed item
stands and what is wrong with it first, and the digits of a time that is too long. -/
inductive Fault.Alike : Fault → Fault → Prop where
  | same (fault : Fault) : Alike fault fault
  | malformed (m n : Nat) (p q : TraceProblem) : Alike (.malformedRecord m p) (.malformedRecord n q)
  | invalidHex (raw raw' : String) : Alike (.invalidHex raw) (.invalidHex raw')

theorem Fault.Alike.symm {f g : Fault} (h : f.Alike g) : g.Alike f := by
  cases h with
  | same => exact .same f
  | malformed m n p q => exact .malformed n m q p
  | invalidHex raw raw' => exact .invalidHex raw' raw

theorem Fault.Alike.trans {f g k : Fault} (h : f.Alike g) (h' : g.Alike k) : f.Alike k := by
  cases h with
  | same => exact h'
  | malformed m n p q =>
    cases h' with
    | same => exact .malformed m n p q
    | malformed _ l _ t => exact .malformed m l p t
  | invalidHex raw raw' =>
    cases h' with
    | same => exact .invalidHex raw raw'
    | invalidHex _ raw'' => exact .invalidHex raw raw''

namespace Trace

namespace Scan

/-- How the answer for a buffer bounds the answer for the buffer with `more` behind it. -/
inductive Persists {α : Type} (more : List UInt8) : Scan α → Scan α → Prop where
  | done (a : α) (rest : List UInt8) : Persists more (.done a rest) (.done a (rest ++ more))
  | short (s : Scan α) : Persists more .short s
  | malformed (p q : TraceProblem) : Persists more (.malformed p) (.malformed q)
  | bad {f g : Fault} (h : f.Alike g) : Persists more (.bad f) (.bad g)

/-- The answers for a buffer hold for every longer one. -/
def Stable {α : Type} (scan : List UInt8 → Scan α) : Prop :=
  ∀ b more, Persists more (scan b) (scan (b ++ more))

variable {α β : Type}

/-- Bytes that end before what is found in more of them does are too short for any answer. -/
theorem Stable.eq_short_of_done {scan : List UInt8 → Scan α} (h : Stable scan)
    {b more : List UInt8} {a : α} (hdone : scan (b ++ more) = .done a []) (hmore : more ≠ []) :
    scan b = .short := by
  have hp := h b more
  rw [hdone] at hp
  generalize hs : scan b = s at hp
  generalize ht : Scan.done a [] = t at hp
  cases hp with
  | done a' rest =>
    simp only [Scan.done.injEq] at ht
    exact absurd (List.append_eq_nil_iff.mp ht.2.symm).2 hmore
  | short => rfl
  | malformed p q => cases ht
  | bad h => cases ht

theorem Persists.bind {more : List UInt8} {s t : Scan α} {next : α → List UInt8 → Scan β}
    (h : Persists more s t) (hnext : ∀ a, Stable (next a)) :
    Persists more (s.bind next) (t.bind next) := by
  cases h with
  | done a rest => exact hnext a rest more
  | short s => exact .short _
  | malformed p q => exact .malformed p q
  | bad h => exact .bad h

theorem Stable.bind {scan : List UInt8 → Scan α} {next : α → List UInt8 → Scan β}
    (h : Stable scan) (hnext : ∀ a, Stable (next a)) :
    Stable fun b => (scan b).bind next := by
  intro b more
  exact (h b more).bind hnext

theorem stable_byte (expected : UInt8) (problem : TraceProblem) :
    Stable (byte expected problem) := by
  intro b more
  cases b with
  | nil => exact .short _
  | cons c rest =>
    simp only [byte, List.cons_append]
    split
    · exact .done () rest
    · exact .malformed problem problem

theorem stable_quoted (q : UInt8) : Stable (quoted q) := by
  intro b more
  cases h : quoted q b with
  | done content rest =>
    obtain ⟨hne, hhead, rfl⟩ := quoted_eq_done_iff.mp h
    have hmore : quoted q (Quoted.doubled q content ++ q :: rest ++ more) =
        .done content (rest ++ more) := by
      apply quoted_eq_done_iff.mpr
      obtain ⟨c, rest, rfl⟩ := List.exists_cons_of_ne_nil hne
      exact ⟨by simp, by simpa using hhead, by simp⟩
    rw [hmore]
    exact .done content rest
  | short => exact .short _
  | malformed problem =>
    unfold quoted at h
    split at h <;> cases h
  | bad fault =>
    unfold quoted at h
    split at h <;> cases h

end Scan

open Scan

theorem scanParamsFrom_done_or_short (taken : List UInt8) (inValue : Bool) (b : List UInt8) :
    (∃ found rest, scanParamsFrom taken inValue b = .done found rest) ∨
      scanParamsFrom taken inValue b = .short := by
  induction b generalizing taken inValue with
  | nil => exact .inr rfl
  | cons c b ih =>
    rw [scanParamsFrom]
    split
    · exact .inl ⟨_, _, rfl⟩
    · exact ih _ _

theorem stable_scanParams : Stable scanParams := by
  intro b more
  rcases scanParamsFrom_done_or_short [] false b with ⟨found, rest, h⟩ | h
  · have hb : scanParams b = .done found rest := h
    obtain ⟨⟨rest', rfl⟩, rfl, hpair⟩ := scanParams_eq_done_iff.mp hb
    have hmore : scanParams (found ++ fieldQuote :: rest' ++ more) =
        .done found (fieldQuote :: rest' ++ more) :=
      scanParams_eq_done_iff.mpr ⟨⟨rest' ++ more, rfl⟩, by simp, hpair⟩
    rw [hb, hmore]
    exact .done found _
  · have hb : scanParams b = .short := h
    rw [hb]
    exact .short _

/-- The digits in front of a buffer either fill it, or end in it and stay as they are. -/
theorem takeWhile_append_cases (p : UInt8 → Bool) (b : List UInt8) :
    (b.dropWhile p = [] ∧ ∀ x ∈ b, p x = true) ∨
      ∃ ds c rest, b = ds ++ c :: rest ∧ (∀ x ∈ ds, p x = true) ∧ p c = false := by
  cases hd : b.dropWhile p with
  | nil => exact .inl ⟨rfl, List.dropWhile_eq_nil_iff.mp hd⟩
  | cons c rest =>
    refine .inr ⟨b.takeWhile p, c, rest, ?_, ?_, ?_⟩
    · rw [← hd]
      exact List.takeWhile_append_dropWhile.symm
    · intro x hx
      exact List.mem_takeWhile_imp hx
    · have := List.head?_dropWhile_not p b
      rw [hd] at this
      simpa using this

theorem stable_scanTime : Stable scanTime := by
  intro b more
  rcases takeWhile_append_cases isHexDigit b with ⟨hd, hall⟩ | ⟨ds, c, rest, rfl, hds, hc⟩
  · have ht : b.takeWhile isHexDigit = b := List.takeWhile_eq_self_iff.mpr hall
    by_cases hlen : maxTimeDigits < b.length
    · have hmore : maxTimeDigits < ((b ++ more).takeWhile isHexDigit).length := by
        rw [List.takeWhile_append_of_pos hall, List.length_append]
        omega
      simp only [scanTime, ht, hlen, hmore, if_true]
      exact .bad (.invalidHex _ _)
    · simp only [scanTime, ht, hlen, hd, if_false]
      exact .short _
  · obtain ⟨ht, hr⟩ := takeWhile_append_cons rest hds hc
    obtain ⟨ht', hr'⟩ := takeWhile_append_cons (rest ++ more) hds hc
    rw [List.append_assoc, List.cons_append]
    simp only [scanTime, ht, hr, ht', hr']
    split
    · exact .bad (.same _)
    · split
      · exact .malformed _ _
      · split
        · exact .done _ rest
        · exact .bad (.same _)

theorem stable_scanLine : Stable scanLine :=
  stable_scanTime.bind fun _ =>
  (stable_byte _ _).bind fun _ =>
  (stable_quoted _).bind fun _ =>
  (stable_byte _ _).bind fun _ =>
  (stable_byte _ _).bind fun _ =>
  stable_scanParams.bind fun _ =>
  (stable_byte _ _).bind fun _ =>
  (stable_byte _ _).bind fun _ => fun rest _ => .done _ rest

theorem Record.stable_ofFields (time : Int64) (tag params : List UInt8) :
    Stable (Record.ofFields time tag params) := by
  intro rest more
  unfold Record.ofFields
  split
  · exact .malformed _ _
  · split
    · exact .bad (.same _)
    · exact .done _ rest

theorem Record.stable_scan : Stable Record.scan := by
  intro b more
  cases b with
  | nil => exact .short _
  | cons c b =>
    by_cases hc : c = sectionDelimiter
    · have hshort : Record.scan (c :: b) = .short := if_pos (by simp [hc])
      rw [hshort]
      exact .short _
    · have hscan (rest : List UInt8) : Record.scan (c :: rest) = (scanLine (c :: rest)).bind
          fun line rest => Record.ofFields line.1 line.2.1 line.2.2 rest :=
        if_neg (by simp [hc])
      rw [List.cons_append, hscan, hscan]
      exact (stable_scanLine (c :: b) more).bind fun line =>
        Record.stable_ofFields line.1 line.2.1 line.2.2

theorem stable_scanId : Stable scanId := by
  intro b more
  rcases takeWhile_append_cases Numeral.isDigit b with ⟨hd, hall⟩ | ⟨ds, c, rest, rfl, hds, hc⟩
  · have ht : b.takeWhile Numeral.isDigit = b := List.takeWhile_eq_self_iff.mpr hall
    by_cases hlen : maxIdDigits < b.length
    · have hb : scanId b = .malformed .idOutOfRange := by
        simp only [scanId, hd, ht, hlen, if_true]
      have hlong : maxIdDigits < ((b ++ more).takeWhile Numeral.isDigit).length := by
        rw [List.takeWhile_append_of_pos hall, List.length_append]
        omega
      have hmore : ∃ problem, scanId (b ++ more) = .malformed problem := by
        unfold scanId
        dsimp only
        split
        · rw [if_pos hlong]
          exact ⟨_, rfl⟩
        · split
          · exact ⟨_, rfl⟩
          · have hid : statementId? ((b ++ more).takeWhile Numeral.isDigit) = none :=
              if_neg fun h => absurd h.1 (Nat.not_le.mpr hlong)
            rw [hid]
            exact ⟨_, rfl⟩
      obtain ⟨problem, hmore⟩ := hmore
      rw [hb, hmore]
      exact .malformed _ _
    · simp only [scanId, hd, ht, hlen, if_false]
      exact .short _
  · obtain ⟨ht, hr⟩ := takeWhile_append_cons rest hds hc
    obtain ⟨ht', hr'⟩ := takeWhile_append_cons (rest ++ more) hds hc
    rw [List.append_assoc, List.cons_append]
    simp only [scanId, ht, hr, ht', hr']
    split
    · exact .malformed _ _
    · split
      · exact .done _ rest
      · exact .malformed _ _

theorem Entry.stable_scan : Stable Entry.scan :=
  stable_scanId.bind fun _ =>
  (stable_byte _ _).bind fun _ =>
  (stable_quoted _).bind fun text =>
  (stable_byte _ _).bind fun _ => fun rest more => by
    cases h : Text.ofBytes? text with
    | some sql => exact .done _ rest
    | none => exact .malformed _ _

end Trace

end WorkloadReplay
