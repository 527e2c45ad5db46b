import WorkloadReplay.Log.Timestamp

/-!
# Clocks keep what is right

What a clock keeps is what it would work out anew, whatever timestamps it has read before, right or
wrong. So the time of a timestamp is that of a clock that keeps nothing.
-/

namespace WorkloadReplay.Log

def hours? (digits : List UInt8) : Option Int :=
  Clock.units? (Numeral.value digits) 23 (3600 * nanosPerSecond)

def minutes? (digits : List UInt8) : Option Int :=
  Clock.units? (Numeral.value digits) 59 (60 * nanosPerSecond)

def midnightOf? (dateZone : List UInt8) : Option Int :=
  midnight? (dateZone.take 10) (dateZone.drop 10)

def hasTimestampForm (b : List UInt8) : Bool :=
  25 ≤ b.length && isTimestampForm (b.take 23) && b[23]? = some 0x20

/-- The time of a timestamp, worked out at once. -/
def exactNanos? (b : List UInt8) : Option Int :=
  if hasTimestampForm b then do
    let midnight ← midnightOf? (b.take 10 ++ Text.trimPadding (b.drop 24))
    let hour ← hours? (slice b 11 13)
    let minute ← minutes? (slice b 14 16)
    let second ← Clock.units? (field b 17 19) 59 nanosPerSecond
    return midnight + hour + minute + second + field b 20 23 * 1000000
  else none

namespace Clock

/-- A part that is kept is what its key stands for. -/
def Right (last : Option (List UInt8 × Int)) (exact : List UInt8 → Option Int) : Prop :=
  ∀ key nanos, last = some (key, nanos) → exact key = some nanos

/-- All that a clock keeps is right. -/
structure Faithful (c : Clock) : Prop where
  midnight : Right c.midnight midnightOf?
  hour : Right c.hour hours?
  minute : Right c.minute minutes?

theorem right_none (exact : List UInt8 → Option Int) : Right none exact := by
  intro key nanos h
  cases h

theorem right_some {exact : List UInt8 → Option Int} {key : List UInt8} {nanos : Int}
    (h : exact key = some nanos) : Right (some (key, nanos)) exact := by
  intro key' nanos' h'
  cases h'
  exact h

theorem faithful_new : new.Faithful := ⟨right_none _, right_none _, right_none _⟩

theorem kept_eq {last : Option (List UInt8 × Int)} {exact : List UInt8 → Option Int}
    (h : Right last exact) {key : List UInt8} {fresh : Unit → Option Int}
    (hfresh : fresh () = exact key) : kept last key fresh = (exact key).map (key, ·) := by
  unfold kept
  split
  · rename_i k nanos
    split
    · rename_i hk
      subst hk
      rw [h k nanos rfl]
      rfl
    · rw [hfresh]
  · rw [hfresh]

theorem nanos?_spec {c : Clock} (h : c.Faithful) (b : List UInt8) :
    (c.nanos? b).2 = exactNanos? b ∧ (c.nanos? b).1.Faithful := by
  unfold nanos? exactNanos?
  change (if !hasTimestampForm b then _ else _ : Clock × Option Int).2 = _ ∧
    (if !hasTimestampForm b then _ else _ : Clock × Option Int).1.Faithful
  cases hform : hasTimestampForm b with
  | false => exact ⟨rfl, h⟩
  | true =>
    have hlen : (b.take 10).length = 10 := by
      simp only [hasTimestampForm, Bool.and_eq_true, decide_eq_true_eq] at hform
      rw [List.length_take]
      omega
    have hmidnight : kept c.midnight (b.take 10 ++ Text.trimPadding (b.drop 24))
        (fun _ => midnight? (b.take 10) (Text.trimPadding (b.drop 24))) =
          (midnightOf? (b.take 10 ++ Text.trimPadding (b.drop 24))).map (_, ·) :=
      kept_eq h.midnight (by rw [midnightOf?, List.take_left' hlen, List.drop_left' hlen])
    have hhour : kept c.hour (slice b 11 13)
        (fun _ => units? (field b 11 13) 23 (3600 * nanosPerSecond)) =
          (hours? (slice b 11 13)).map (_, ·) := kept_eq h.hour rfl
    have hminute : kept c.minute (slice b 14 16)
        (fun _ => units? (field b 14 16) 59 (60 * nanosPerSecond)) =
          (minutes? (slice b 14 16)).map (_, ·) := kept_eq h.minute rfl
    simp only [Bool.not_true, Bool.false_eq_true, if_false, if_true, hmidnight, hhour, hminute]
    cases hm : midnightOf? (b.take 10 ++ Text.trimPadding (b.drop 24)) with
    | none => exact ⟨rfl, h⟩
    | some midnight =>
      cases hh : hours? (slice b 11 13) with
      | none => exact ⟨rfl, right_some hm, h.hour, h.minute⟩
      | some hour =>
        cases hi : minutes? (slice b 14 16) with
        | none => exact ⟨rfl, right_some hm, right_some hh, h.minute⟩
        | some minute =>
          have hfaithful : Faithful ⟨some (_, midnight), some (_, hour), some (_, minute)⟩ :=
            ⟨right_some hm, right_some hh, right_some hi⟩
          cases hs : units? (field b 17 19) 59 nanosPerSecond with
          | none => exact ⟨rfl, hfaithful⟩
          | some second => exact ⟨rfl, hfaithful⟩

/-- A clock that has read other timestamps before gives the same time. -/
theorem parse_spec {c : Clock} (h : c.Faithful) (raw : String) :
    (c.parse raw).2 = (new.parse raw).2 ∧ (c.parse raw).1.Faithful := by
  obtain ⟨hc, hfaithful⟩ := nanos?_spec h (Text.bytes raw)
  obtain ⟨hnew, -⟩ := nanos?_spec faithful_new (Text.bytes raw)
  have hsame := hc.trans hnew.symm
  unfold parse
  generalize c.nanos? (Text.bytes raw) = x at hsame hfaithful
  generalize new.nanos? (Text.bytes raw) = y at hsame
  obtain ⟨d, answer⟩ := x
  obtain ⟨e, answer'⟩ := y
  obtain rfl : answer = answer' := hsame
  cases answer with
  | none => exact ⟨rfl, hfaithful⟩
  | some nanos => exact ⟨rfl, hfaithful⟩

end Clock

end WorkloadReplay.Log
