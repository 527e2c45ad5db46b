import WorkloadReplay.Proofs.ParamsGrammar

/-!
# Where a field of parameters ends

The end of a field is found before the letter of any type is looked at, by single quotes in pairs
and a double quote outside of them. Its values are cut off afterwards, tuple by tuple. Wherever a
tuple ends, the quotes in front of it are paired, so the two never disagree: a field that is cut off
leaves no text open, and a field that is read ends where it is cut off.
-/

namespace WorkloadReplay

namespace Params

open Trace

theorem quotesPair_tuples (ts : List Tuple) (rest : List UInt8) :
    quotesPair false (ts.flatMap Tuple.bytes ++ rest) = quotesPair false rest := by
  induction ts with
  | nil => rfl
  | cons t ts ih =>
    have hquote : t.letter ≠ quote := t.letter_ne_quote
    have hfield : t.letter ≠ fieldQuote := by
      intro h
      have hknown := t.known
      rw [h] at hknown
      revert hknown
      decide
    rw [List.flatMap_cons, List.append_assoc, Tuple.bytes, List.cons_append, quotesPair,
      if_neg hquote, quotesPair_enclose, ih]
    simp [hfield]

/-- A text that no quote closes leaves the last single quote without its pair. -/
theorem quotesPair_doubled_open (content : List UInt8) :
    quotesPair true (Quoted.doubled quote content) = false := by
  induction content with
  | nil => rfl
  | cons c content ih =>
    by_cases hc : c = quote
    · subst hc
      simpa [quotesPair, quote, fieldQuote] using ih
    · simpa [quotesPair, hc] using ih

/-- Behind tuples that mean values stands a letter of a type with a text that no quote closes. -/
def LeavesOpen (b : List UInt8) : Prop :=
  ∃ (ts : List Tuple) (vs : List Value) (letter : UInt8) (content : List UInt8),
    b = ts.flatMap Tuple.bytes ++ letter :: quote :: Quoted.doubled quote content ∧
      List.Forall₂ Tuple.Means ts vs ∧ letter ∈ Value.tags

theorem not_leavesOpen_of_quotesPair {b : List UInt8} (h : quotesPair false b = true) :
    ¬ LeavesOpen b := by
  rintro ⟨ts, vs, letter, content, rfl, -, hletter⟩
  have hquote : letter ≠ quote := by
    rintro rfl
    exact Value.quote_not_mem_tags hletter
  rw [quotesPair_tuples, quotesPair, if_neg hquote, quotesPair, if_pos rfl, Bool.not_false,
    quotesPair_doubled_open] at h
  simp at h

/-- The ways to answer for bytes that leave no text open: the values of all tuples, or a fault for
the first tuple that does not fit, which has no letter of a type, no quote behind its letter, or a
complete text that is no value of its type. -/
inductive Settles (b : List UInt8) : Except Fault (List Value) → Prop where
  | values {ts : List Tuple} {vs : List Value} (hb : b = ts.flatMap Tuple.bytes)
      (hmeans : List.Forall₂ Tuple.Means ts vs) : Settles b (.ok vs)
  | letter {ts : List Tuple} {vs : List Value} {c : UInt8} {rest : List UInt8}
      (hb : b = ts.flatMap Tuple.bytes ++ c :: rest) (hmeans : List.Forall₂ Tuple.Means ts vs)
      (hletter : c ∉ Value.tags) : Settles b (.error (.unknownTypeTag c))
  | opening {ts : List Tuple} {vs : List Value} {c : UInt8} {rest : List UInt8}
      (hb : b = ts.flatMap Tuple.bytes ++ c :: rest) (hmeans : List.Forall₂ Tuple.Means ts vs)
      (hletter : c ∈ Value.tags) (hquote : rest.head? ≠ some quote) :
      Settles b (.error (.invalidParamValue c (Text.lossy rest)))
  | value {ts : List Tuple} {vs : List Value} {c : UInt8} {content rest : List UInt8}
      (hb : b = ts.flatMap Tuple.bytes ++ c :: (Quoted.enclose quote content ++ rest))
      (hmeans : List.Forall₂ Tuple.Means ts vs) (hletter : c ∈ Value.tags)
      (hrest : rest.head? ≠ some quote) (hvalue : ∀ v, ¬ Value.Means c content v) :
      Settles b (.error (.invalidParamValue c (Text.lossy content)))

theorem settles_decode {b : List UInt8} (h : ¬ LeavesOpen b) : Settles b (decode b) := by
  obtain ⟨ts, vs, rest, rfl, hmeans, -, hend⟩ :=
    (decode_eq_iff_reads.mp (rfl : decode b = decode b)).exists_tuples
  rcases hend with ⟨rfl, hvs⟩ | ⟨fault, hmisfit, hfault⟩
  · rw [hvs]
    exact .values (List.append_nil _) hmeans
  · rw [hfault]
    cases hmisfit with
    | letter rest hletter => exact .letter rfl hmeans hletter
    | opening hletter hquote => exact .opening rfl hmeans hletter hquote
    | closing content hletter => exact absurd ⟨ts, vs, _, content, rfl, hmeans, hletter⟩ h
    | value hletter hrest hvalue => exact .value rfl hmeans hletter hrest hvalue

theorem quotesPair_of_decode {b : List UInt8} {vs : List Value} (h : decode b = .ok vs) :
    quotesPair false b = true := by
  obtain ⟨ts, rfl, -⟩ := ((decode_readAsTuples b).accepted vs).mp h
  simpa [quotesPair] using quotesPair_tuples ts []

end Params

namespace Trace

/-- The position of the double quote that ends the field of parameters at `start`, if the buffer
reaches so far. -/
def paramsEnd? (buffer : List UInt8) (start : Nat) : Option Nat :=
  match scanParams (buffer.drop start) with
  | .done _ rest => some (buffer.length - rest.length)
  | _ => none

theorem paramsEnd?_eq_some {buffer : List UInt8} {start stop : Nat} :
    paramsEnd? buffer start = some stop ↔
      ∃ found rest, scanParams (buffer.drop start) = .done found rest ∧
        stop = buffer.length - rest.length := by
  unfold paramsEnd?
  split
  · rename_i found rest h
    simp [h, eq_comm]
  · rename_i s hs
    simpa using fun found rest h => absurd h (hs found rest)

theorem slice_append_drop {buffer : List UInt8} {start stop : Nat} (h : start ≤ stop) :
    (buffer.take stop).drop start ++ buffer.drop stop = buffer.drop start := by
  have hdrop : buffer.drop stop = (buffer.drop start).drop (stop - start) := by
    rw [List.drop_drop, Nat.add_sub_cancel' h]
  rw [List.drop_take, hdrop, List.take_append_drop]

/-- The field ends at the double quote in front of which the quotes are paired. -/
theorem paramsEnd?_eq_some_iff {buffer : List UInt8} {start stop : Nat} :
    paramsEnd? buffer start = some stop ↔
      start ≤ stop ∧ buffer[stop]? = some fieldQuote ∧
        quotesPair false ((buffer.take stop).drop start) = true := by
  rw [paramsEnd?_eq_some]
  constructor
  · rintro ⟨found, rest, h, rfl⟩
    obtain ⟨⟨more, rfl⟩, hb, hpair⟩ := scanParams_eq_done_iff.mp h
    have hlen := congrArg List.length hb
    simp only [List.length_drop, List.length_append, List.length_cons] at hlen
    have hstop : buffer.length - (fieldQuote :: more).length = start + found.length := by
      simp only [List.length_cons]
      omega
    have hslice : (buffer.take (start + found.length)).drop start = found := by
      rw [List.drop_take, hb, Nat.add_sub_cancel_left, List.take_left]
    rw [hstop, hslice]
    refine ⟨Nat.le_add_right _ _, ?_, hpair⟩
    rw [← List.getElem?_drop, hb, List.getElem?_append_right le_rfl, Nat.sub_self,
      List.getElem?_cons_zero]
  · rintro ⟨hle, hquote, hpair⟩
    obtain ⟨more, hmore⟩ : ∃ more, buffer.drop stop = fieldQuote :: more :=
      List.head?_eq_some_iff.mp (List.head?_drop.trans hquote)
    have hlt : stop < buffer.length := (List.getElem?_eq_some_iff.mp hquote).1
    refine ⟨_, buffer.drop stop, scanParams_eq_done_iff.mpr
      ⟨⟨more, hmore⟩, (slice_append_drop hle).symm, hpair⟩, ?_⟩
    rw [List.length_drop]
    omega

/-- How the end of the field at a position and the values in it fit together. -/
structure FieldFits (buffer : List UInt8) (start : Nat) : Prop where
  /-- Where the end is found, the bytes up to it leave no text open. -/
  settles : ∀ stop, paramsEnd? buffer start = some stop →
    start ≤ stop ∧ buffer[stop]? = some fieldQuote ∧
      ¬ Params.LeavesOpen ((buffer.take stop).drop start) ∧
        Params.Settles ((buffer.take stop).drop start)
          (Params.decode ((buffer.take stop).drop start))
  /-- Where values stand in front of a double quote, the end is found there, whatever follows. -/
  found : ∀ stop vs, start ≤ stop → buffer[stop]? = some fieldQuote →
    Params.decode ((buffer.take stop).drop start) = .ok vs → paramsEnd? buffer start = some stop

/-- The scan for the end of a field and the reading of its values agree at any position. -/
theorem fieldFits_everywhere (buffer : List UInt8) (start : Nat) : FieldFits buffer start where
  settles := by
    intro stop h
    obtain ⟨hle, hquote, hpair⟩ := paramsEnd?_eq_some_iff.mp h
    have hclosed := Params.not_leavesOpen_of_quotesPair hpair
    exact ⟨hle, hquote, hclosed, Params.settles_decode hclosed⟩
  found := fun stop vs hle hquote h =>
    paramsEnd?_eq_some_iff.mpr ⟨hle, hquote, Params.quotesPair_of_decode h⟩

/-- Double quotes and doubled single quotes inside of a text do not end the field. -/
example : paramsEnd? (Text.bytes "v'it''s \"so\"'''i'1'\",") 0 = some 19 := by decide

end Trace

end WorkloadReplay
