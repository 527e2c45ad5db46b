import WorkloadReplay.Proofs.FractionalTexts

/-!
# Values inferred from texts

A logged text is taken for an integer exactly if it is the text that the integer is written with, so
no character of it is lost. It is taken for a double precision number exactly if it is a decimal
number with a point or an exponent, and no more of a sign than a minus, whose value is finite. All
such texts can be read as numbers. Any other text is a time of some kind, or stays what it is.
-/

namespace WorkloadReplay

namespace Value
open Numeral

/-- What a text is taken for, by what it was not taken for before. -/
inductive Infers (s : String) : Value → Prop where
  | int {i : Int64} (h : canonicalInt? (Text.bytes s) = some i) : Infers s (int i)
  | double {x : Double} (hint : canonicalInt? (Text.bytes s) = none)
      (h : fractional? (Text.bytes s) = some x) : Infers s (double x)
  | timestamp (hint : canonicalInt? (Text.bytes s) = none)
      (hdouble : fractional? (Text.bytes s) = none) (ms : Int64) : Infers s (timestamp ms)
  | date (hint : canonicalInt? (Text.bytes s) = none)
      (hdouble : fractional? (Text.bytes s) = none) (ms : Int64) : Infers s (date ms)
  | time (hint : canonicalInt? (Text.bytes s) = none)
      (hdouble : fractional? (Text.bytes s) = none) (ms : Int64) : Infers s (time ms)
  | text (hint : canonicalInt? (Text.bytes s) = none)
      (hdouble : fractional? (Text.bytes s) = none) : Infers s (text s)

theorem exists_of_timestamp? {s : String} {v : Value} (h : timestamp? s = some v) :
    ∃ ms, v = timestamp ms := by
  unfold timestamp? at h
  split at h
  · obtain ⟨ms, -, rfl⟩ := Option.map_eq_some_iff.mp h
    exact ⟨_, rfl⟩
  · cases h

theorem exists_of_date? {s : String} {v : Value} (h : date? s = some v) : ∃ ms, v = date ms := by
  unfold date? at h
  split at h
  · obtain ⟨d, -, rfl⟩ := Option.map_eq_some_iff.mp h
    exact ⟨_, rfl⟩
  · cases h

theorem exists_of_time? {s : String} {v : Value} (h : time? s = some v) : ∃ ms, v = time ms := by
  unfold time? at h
  split at h
  · obtain ⟨t, -, rfl⟩ := Option.map_eq_some_iff.mp h
    exact ⟨_, rfl⟩
  · cases h

theorem infers_infer (s : String) : Infers s (infer s) := by
  unfold infer
  split
  · rename_i i hint
    exact .int hint
  · rename_i hint
    split
    · rename_i x hdouble
      exact .double hint hdouble
    · rename_i hdouble
      cases h : (timestamp? s <|> date? s) <|> time? s with
      | none => exact .text hint hdouble
      | some v =>
        rw [Option.getD_some]
        simp only [Option.orElse_eq_orElse, Option.orElse_eq_or, Option.or_eq_some_iff] at h
        rcases h with (h | ⟨-, h⟩) | ⟨-, h⟩
        · obtain ⟨ms, rfl⟩ := exists_of_timestamp? h
          exact .timestamp hint hdouble ms
        · obtain ⟨ms, rfl⟩ := exists_of_date? h
          exact .date hint hdouble ms
        · obtain ⟨ms, rfl⟩ := exists_of_time? h
          exact .time hint hdouble ms

/-! ## Integers -/

theorem dropMinus_of_isNumeral {ds : List UInt8} (h : isNumeral ds = true) :
    dropMinus ds = ds := by
  apply dropMinus_of_head
  intro hhead
  have hminus := (isNumeral_iff.mp h).2 0x2D (List.mem_of_mem_head? hhead)
  exact absurd hminus (by decide)

theorem isCanonicalNumeral_iff {ds : List UInt8} :
    isCanonicalNumeral ds = true ↔ isNumeral ds = true ∧ IsReduced ds := by
  rw [isCanonicalNumeral, Bool.and_eq_true, Bool.or_eq_true, decide_eq_true_eq, decide_eq_true_eq]
  constructor
  · rintro ⟨hnumeral, hzero⟩
    refine ⟨hnumeral, (isNumeral_iff.mp hnumeral).1, fun hhead => ?_⟩
    rcases hzero with hlength | hne
    · obtain ⟨d, rfl⟩ := List.length_eq_one_iff.mp hlength
      rw [List.head?_cons] at hhead
      rw [Option.some.inj hhead]
    · exact absurd hhead hne
  · rintro ⟨hnumeral, hreduced⟩
    refine ⟨hnumeral, ?_⟩
    by_cases hhead : ds.head? = some 0x30
    · rw [hreduced.eq_zero hhead]
      exact .inl rfl
    · exact .inr hhead

theorem ofNat_value {ds : List UInt8} (h : isCanonicalNumeral ds = true) :
    ofNat (value ds) = ds := by
  obtain ⟨hnumeral, hreduced⟩ := isCanonicalNumeral_iff.mp h
  exact positional.write_read_of_isReduced
    (exists_digit_of_isDigit (isNumeral_iff.mp hnumeral).2) hreduced

theorem isCanonicalNumeral_ofNat (n : Nat) : isCanonicalNumeral (ofNat n) = true :=
  isCanonicalNumeral_iff.mpr ⟨isNumeral_ofNat n, positional.isReduced_write n⟩

theorem ofInt_natCast (n : Nat) : ofInt n = ofNat n := by
  rw [ofInt, if_neg (by omega), Int.natAbs_natCast]

theorem ofInt_neg {n : Nat} (h : 0 < n) : ofInt (-n) = 0x2D :: ofNat n := by
  rw [ofInt, if_pos (by omega), Int.natAbs_neg, Int.natAbs_natCast]

theorem eq_ofInt64_of_canonicalInt? {b : List UInt8} {v : Int64} (h : canonicalInt? b = some v) :
    b = ofInt64 v := by
  rw [canonicalInt?, Option.ite_none_right_eq_some, Bool.and_eq_true, decide_eq_true_eq] at h
  obtain ⟨⟨hcanonical, hzero⟩, hread⟩ := h
  obtain ⟨sign, ds, rfl, hds, hv⟩ := int64?_eq_some_iff.mp hread
  rw [ofInt64, hv]
  cases sign with
  | none =>
    have hdigits : isCanonicalNumeral ds = true := dropMinus_of_isNumeral hds ▸ hcanonical
    rw [Sign.bytes, Sign.apply, List.nil_append, ofInt_natCast, ofNat_value hdigits]
  | plus =>
    have hplus := isDigit_of_isNumeral_cons (isCanonicalNumeral_iff.mp hcanonical).1
    exact absurd hplus (by decide)
  | minus =>
    have hdigits : ofNat (value ds) = ds := ofNat_value hcanonical
    have hpos : 0 < value ds := by
      apply Nat.pos_of_ne_zero
      intro hvalue
      rw [hvalue, positional.write_zero] at hdigits
      exact hzero (by rw [← hdigits]; rfl)
    rw [Sign.bytes, Sign.apply, ofInt_neg hpos, hdigits, List.singleton_append]

theorem exists_ofInt (i : Int) :
    (∃ n, ofInt i = ofNat n) ∨ ∃ n, 0 < n ∧ ofInt i = 0x2D :: ofNat n := by
  unfold ofInt
  split
  · exact .inr ⟨_, by omega, rfl⟩
  · exact .inl ⟨_, rfl⟩

theorem canonicalInt?_ofInt64 (v : Int64) : canonicalInt? (ofInt64 v) = some v := by
  rw [canonicalInt?, Option.ite_none_right_eq_some, Bool.and_eq_true, decide_eq_true_eq]
  refine ⟨?_, int64?_ofInt64 v⟩
  rw [ofInt64]
  rcases exists_ofInt v.toInt with ⟨n, hn⟩ | ⟨n, hpos, hn⟩
  · rw [hn, dropMinus_of_isNumeral (isNumeral_ofNat n)]
    refine ⟨isCanonicalNumeral_ofNat n, fun hzero => ?_⟩
    have hminus := isDigit_of_mem_ofNat (n := n) 0x2D (by rw [hzero]; exact List.mem_cons_self)
    exact absurd hminus (by decide)
  · rw [hn]
    refine ⟨isCanonicalNumeral_ofNat n, fun hzero => ?_⟩
    have hvalue := congrArg value (List.tail_eq_of_cons_eq hzero)
    rw [value_ofNat, ← positional.write_zero, value_ofNat] at hvalue
    omega

/-- An integer is taken from its text and from no other. -/
theorem canonicalInt?_eq_some_iff {b : List UInt8} {v : Int64} :
    canonicalInt? b = some v ↔ b = ofInt64 v := by
  constructor
  · exact eq_ofInt64_of_canonicalInt?
  · rintro rfl
    exact canonicalInt?_ofInt64 v

theorem canonicalInt?_of_fractionalText {b : List UInt8} (h : FractionalText b) :
    canonicalInt? b = none := by
  have hall := (fractionalText_iff.mp h).1
  rw [canonicalInt?, if_neg]
  intro hcanonical
  rw [Bool.and_eq_true] at hcanonical
  have hnumeral := (isCanonicalNumeral_iff.mp hcanonical.1).1
  rw [List.all_eq_true.mpr (isNumeral_iff.mp hnumeral).2] at hall
  cases hall

/-! ## What a text is taken for -/

theorem Infers.eq_int_iff {s : String} {v : Value} (h : Infers s v) {i : Int64} :
    v = .int i ↔ canonicalInt? (Text.bytes s) = some i := by
  cases h <;> simp_all

theorem Infers.eq_double_iff {s : String} {v : Value} (h : Infers s v) {x : Double} :
    v = .double x ↔
      canonicalInt? (Text.bytes s) = none ∧ fractional? (Text.bytes s) = some x := by
  cases h <;> simp_all

/-- What a text is taken for, as far as it is a number or stays a text. -/
structure InferredFrom (s : String) (v : Value) : Prop where
  int (i : Int64) : v = .int i ↔ Text.bytes s = ofInt64 i
  double (x : Double) : v = .double x ↔
    FractionalText (Text.bytes s) ∧ Double.ofText? (Text.bytes s) = some x ∧ x.isFinite = true
  readable : FractionalText (Text.bytes s) → ∃ x, Double.ofText? (Text.bytes s) = some x
  ne_null : v ≠ .null
  ne_bool (b : Bool) : v ≠ .bool b
  text (t : String) : v = .text t → t = s

/-- Numbers are inferred from exactly the texts that are numbers, integers without loss of a
character. -/
theorem inferredFrom_infer (s : String) : InferredFrom s (infer s) := by
  have h := infers_infer s
  constructor
  case int =>
    intro i
    rw [h.eq_int_iff, canonicalInt?_eq_some_iff]
  case double =>
    intro x
    rw [h.eq_double_iff, fractional?_eq_some_iff]
    exact and_iff_right_of_imp fun hx => canonicalInt?_of_fractionalText hx.1
  case readable => exact exists_ofText?_of_fractionalText
  case ne_null =>
    intro hv
    cases hv ▸ h
  case ne_bool =>
    intro b hv
    cases hv ▸ h
  case text =>
    intro t hv
    cases hv ▸ h
    rfl

/-- The ends of the range of integers, and what is no number for its zeros or its size. -/
example : infer "-9223372036854775808" = .int Int64.minValue ∧
    infer "9223372036854775808" = .text "9223372036854775808" ∧ infer "-0" = .text "-0" ∧
    infer "-.5e+1" = .double ⟨0xC014000000000000⟩ ∧ infer "1e400" = .text "1e400" := by
  decide +kernel

end Value

end WorkloadReplay
