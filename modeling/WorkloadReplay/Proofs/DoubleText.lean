import WorkloadReplay.Double.Text
import WorkloadReplay.Proofs.DoubleRounding
import WorkloadReplay.Proofs.SignedNumerals
import Mathlib.Data.List.TakeWhile

/-!
# Reading back the text of a number

Reading a positional text rounds the decimal number that it was written for. The shortest digits are
chosen among those that are rounded to the number again, and all digits are the value of the number
itself, so every number that is written is read back.
-/

namespace WorkloadReplay.Double
open Numeral

variable {ds whole decimals : List UInt8}

private theorem mantissa_digits (h : ∀ b ∈ ds, isDigit b = true) : mantissa ds = (ds, [], []) := by
  have ht : ds.takeWhile isDigit = ds := List.takeWhile_eq_self_iff.mpr h
  have hd : ds.dropWhile isDigit = [] := List.dropWhile_eq_nil_iff.mpr h
  simp [mantissa, ht, hd]

private theorem mantissa_point (hw : ∀ b ∈ whole, isDigit b = true)
    (hd : ∀ b ∈ decimals, isDigit b = true) :
    mantissa (whole ++ 0x2E :: decimals) = (whole, decimals, []) := by
  have hpoint : isDigit 0x2E = false := by decide
  have ht : (whole ++ 0x2E :: decimals).takeWhile isDigit = whole := by
    simp [List.takeWhile_append_of_pos hw, hpoint]
  have hr : (whole ++ 0x2E :: decimals).dropWhile isDigit = 0x2E :: decimals := by
    simp [List.dropWhile_append_of_pos hw, hpoint]
  have ht' : decimals.takeWhile isDigit = decimals := List.takeWhile_eq_self_iff.mpr hd
  have hr' : decimals.dropWhile isDigit = [] := List.dropWhile_eq_nil_iff.mpr hd
  simp [mantissa, ht, hr, ht', hr']

private theorem ofDecimal_zero (exponent : Int) : ofDecimal 0 exponent = 0 := by
  simp [ofDecimal, nearest]

private theorem ofDigits_eq {exponent : Int} (hle : exponent ≤ 0)
    (hge : -(ds.length : Int) ≤ exponent) :
    ofDigits ds exponent = ofDecimal (value ds) exponent := by
  by_cases hv : value ds = 0
  · simp [ofDigits, hv, ofDecimal_zero]
  · have h₁ : ¬ 400 < exponent := by omega
    have h₂ : ¬ exponent < -((ds.length + 400 : Nat) : Int) := by omega
    simp only [ofDigits, number_eq_value, hv, h₁, h₂, if_false]

theorem decimal?_digits (hne : ds ≠ []) (h : ∀ b ∈ ds, isDigit b = true) :
    decimal? ds = some (ofDecimal (value ds) 0) := by
  have hn : ds.isEmpty = false := by simpa using hne
  have ho : ofDigits ds 0 = ofDecimal (value ds) 0 := ofDigits_eq (le_refl _) (by omega)
  simp [decimal?, mantissa_digits h, hn, exponentPart?, ho]

theorem decimal?_point (hne : whole ≠ []) (hw : ∀ b ∈ whole, isDigit b = true)
    (hd : ∀ b ∈ decimals, isDigit b = true) :
    decimal? (whole ++ 0x2E :: decimals) =
      some (ofDecimal (value (whole ++ decimals)) (-decimals.length)) := by
  have hn : whole.isEmpty = false := by simpa using hne
  have ho : ofDigits (whole ++ decimals) (-decimals.length) =
      ofDecimal (value (whole ++ decimals)) (-decimals.length) := by
    apply ofDigits_eq
    · omega
    · simp only [List.length_append]
      omega
  simp [decimal?, mantissa_point hw hd, hn, exponentPart?, ho]

private theorem value_append_zeros (ds : List UInt8) (k : Nat) :
    value (ds ++ List.replicate k 0x30) = value ds * 10 ^ k := by
  induction k with
  | zero => simp
  | succ k ih =>
    rw [List.replicate_succ', ← List.append_assoc, value_append_digit, ih, pow_succ]
    simp [digitValue]
    ring

private theorem value_zeros_append (ds : List UInt8) (k : Nat) :
    value (List.replicate k 0x30 ++ ds) = value ds := by
  induction k with
  | zero => simp
  | succ k ih => simpa [List.replicate_succ, value, digitValue] using ih

private theorem isDigit_of_mem_zeros {k : Nat} : ∀ b ∈ List.replicate k 0x30, isDigit b = true := by
  intro b hb
  rw [List.eq_of_mem_replicate hb]
  decide

theorem decimal?_positional (d : Decimal) :
    decimal? d.positional = some (ofDecimal d.digits d.exponent) := by
  unfold Decimal.positional
  dsimp only
  split
  · rename_i hnonneg
    obtain ⟨k, hk⟩ := Int.eq_ofNat_of_zero_le hnonneg
    rw [decimal?_digits (by simp [ofNat_ne_nil]), value_append_zeros, value_ofNat, hk]
    · simp [ofDecimal, power]
    · intro b hb
      rcases List.mem_append.mp hb with hb | hb
      · exact isDigit_of_mem_ofNat b hb
      · exact isDigit_of_mem_zeros b hb
  · rename_i hneg
    have hplaces : d.exponent = -((-d.exponent).toNat : Int) := by omega
    split
    · rename_i hlt
      rw [decimal?_point, List.take_append_drop, value_ofNat, List.length_drop, hplaces]
      · congr 3
        omega
      · intro hnil
        have := congrArg List.length hnil
        simp only [List.length_take, List.length_nil] at this
        omega
      · exact fun b hb => isDigit_of_mem_ofNat b (List.mem_of_mem_take hb)
      · exact fun b hb => isDigit_of_mem_ofNat b (List.mem_of_mem_drop hb)
    · rename_i hge
      have hdecimals : ∀ b ∈ List.replicate ((-d.exponent).toNat - (ofNat d.digits).length) 0x30 ++
          ofNat d.digits, isDigit b = true := by
        intro b hb
        rcases List.mem_append.mp hb with hb | hb
        · exact isDigit_of_mem_zeros b hb
        · exact isDigit_of_mem_ofNat b hb
      have hd := decimal?_point (List.cons_ne_nil 0x30 []) (by simp [isDigit]) hdecimals
      have hz := value_zeros_append (List.replicate
        ((-d.exponent).toNat - (ofNat d.digits).length) 0x30 ++ ofNat d.digits) 1
      rw [List.singleton_append] at hd
      rw [hd]
      simp only [List.replicate_one] at hz
      rw [hz, value_zeros_append, value_ofNat, List.length_append, List.length_replicate]
      congr 2
      omega

/-- All digits of a finite number read back. -/
theorem ofDecimal_expansion {x : Double} (hx : x.isFinite = true) (h₀ : x.magnitude ≠ 0) :
    ofDecimal x.expansion.digits x.expansion.exponent = x.magnitude := by
  apply ofDecimal_of_value hx h₀
  unfold expansion
  split
  · rename_i hnonneg
    obtain ⟨k, hk⟩ := Int.eq_ofNat_of_zero_le hnonneg
    simp [hk]
  · rename_i hneg
    obtain ⟨k, hk⟩ := Int.eq_ofNat_of_zero_le (show 0 ≤ -x.scale by omega)
    have hs : x.scale = -(k : Int) := by omega
    have hten : (10 : ℚ) ^ k = 2 ^ k * 5 ^ k := by rw [← mul_pow]; norm_num
    simp [hs, hten]
    field_simp

private theorem ofDecimal_first {x : Double} {first second d : Decimal}
    (h : (if ofDecimal first.digits first.exponent = x.magnitude then some first
      else if ofDecimal second.digits second.exponent = x.magnitude then some second
      else none) = some d) : ofDecimal d.digits d.exponent = x.magnitude := by
  split at h
  · rename_i hf
    cases h
    exact hf
  · split at h
    · rename_i hs
      cases h
      exact hs
    · cases h

theorem ofDecimal_of_onGrid? {x : Double} {unit : Int} {d : Decimal} (h : onGrid? x unit = some d) :
    ofDecimal d.digits d.exponent = x.magnitude := by
  unfold onGrid? at h
  dsimp only at h
  split at h <;> exact ofDecimal_first h

theorem ofDecimal_shortest {x : Double} (hx : x.isFinite = true) (h₀ : x.magnitude ≠ 0) :
    ofDecimal x.shortest.digits x.shortest.exponent = x.magnitude := by
  unfold shortest
  dsimp only
  cases hf : (List.range' 1 17).findSome? fun (n : Nat) =>
      onGrid? x (decimalOrder x.ratio.1 x.ratio.2 - n) with
  | none => exact ofDecimal_expansion hx h₀
  | some d =>
    obtain ⟨n, -, hn⟩ := List.exists_of_findSome?_eq_some hf
    exact ofDecimal_of_onGrid? hn

private theorem positional_head (d : Decimal) :
    ∃ b rest, d.positional = b :: rest ∧ isDigit b = true := by
  obtain ⟨b, rest, hds, hb⟩ := exists_ofNat_eq_cons d.digits
  unfold Decimal.positional
  dsimp only
  rw [hds]
  split
  · exact ⟨b, _, rfl, hb⟩
  · split
    · rename_i hlt
      obtain ⟨k, hk⟩ := Nat.exists_eq_add_one_of_ne_zero (Nat.sub_ne_zero_of_lt hlt)
      rw [hk]
      exact ⟨b, _, rfl, hb⟩
    · exact ⟨0x30, _, rfl, by decide⟩

private theorem unsigned?_of_digit {b : UInt8} (hb : isDigit b = true) (negative : Bool)
    (rest : List UInt8) :
    unsigned? negative (b :: rest) = (decimal? (b :: rest)).map (ofMagnitude negative) := by
  simp only [isDigit, Bool.and_eq_true, decide_eq_true_eq] at hb
  have hlower : lower b = b := by
    have : ¬ (0x41 ≤ b ∧ b ≤ 0x5A) := by
      rintro ⟨h, -⟩
      exact absurd (UInt8.le_trans h hb.2) (by decide)
    simp [lower, this]
  have hi : b ≠ 0x69 := by
    rintro rfl
    exact absurd hb.2 (by decide)
  have hn : b ≠ 0x6E := by
    rintro rfl
    exact absurd hb.2 (by decide)
  simp [unsigned?, hlower, hi, hn]

theorem unsigned?_magnitudeText {x : Double} (hx : x.isNaN = false) (negative : Bool) :
    unsigned? negative x.magnitudeText = some (ofMagnitude negative x.magnitude) := by
  unfold magnitudeText
  split
  · rename_i h₀
    rw [unsigned?_of_digit (by decide), decimal?_digits (by simp) (by simp [isDigit]), h₀]
    simp [value, digitValue, ofDecimal_zero]
  · split
    · rename_i hi
      simp only [isInfinite, decide_eq_true_eq] at hi
      simp [unsigned?, lower, infinity, hi]
    · rename_i h₀ hi
      have hfinite : x.isFinite = true := by
        simp only [isNaN, isInfinite, isFinite, decide_eq_true_eq, decide_eq_false_iff_not] at *
        omega
      obtain ⟨b, rest, hp, hb⟩ := positional_head x.shortest
      have hd := decimal?_positional x.shortest
      rw [ofDecimal_shortest hfinite h₀, hp] at hd
      rw [hp, unsigned?_of_digit hb, hd]
      rfl

private theorem magnitudeText_head (x : Double) :
    ∃ b rest, x.magnitudeText = b :: rest ∧ b ≠ 0x2D ∧ b ≠ 0x2B := by
  unfold magnitudeText
  split
  · exact ⟨0x30, _, rfl, by decide, by decide⟩
  · split
    · exact ⟨0x69, _, rfl, by decide, by decide⟩
    · obtain ⟨b, rest, hp, hb⟩ := positional_head x.shortest
      refine ⟨b, rest, hp, ?_, ?_⟩ <;> rintro rfl <;> revert hb <;> decide

theorem ofMagnitude_magnitude (x : Double) : ofMagnitude x.isNegative x.magnitude = x := by
  have hlt := x.bits.toNat_lt
  have hbits : (if x.isNegative then signWeight + x.magnitude else x.magnitude) =
      x.bits.toNat := by
    by_cases h : signWeight ≤ x.bits.toNat
    · simp only [isNegative, magnitude, h, decide_true, if_true]
      simp only [signWeight] at *
      omega
    · simp only [isNegative, magnitude, h, decide_false, Bool.false_eq_true, if_false]
      simp only [signWeight] at *
      omega
  simp [ofMagnitude, hbits]

/-- What a number is read back as: itself, but one number stands for all that are none. -/
def canonical (x : Double) : Double := if x.isNaN then notANumber false else x

theorem ofText?_text (x : Double) : ofText? x.text = some x.canonical := by
  unfold text canonical
  cases hx : x.isNaN with
  | true =>
    have hread : ofText? [0x4E, 0x61, 0x4E] = some (notANumber false) := by decide
    simp [hread]
  | false =>
    have hread := ofMagnitude_magnitude x
    cases hneg : x.isNegative with
    | true =>
      rw [hneg] at hread
      simp [ofText?, unsigned?_magnitudeText hx, hread]
    | false =>
      rw [hneg] at hread
      obtain ⟨b, rest, ht, hminus, hplus⟩ := magnitudeText_head x
      have hunsigned : ofText? x.magnitudeText = unsigned? false x.magnitudeText := by
        rw [ht]
        unfold ofText?
        split <;> simp_all
      simp [hunsigned, unsigned?_magnitudeText hx, hread]

end WorkloadReplay.Double
