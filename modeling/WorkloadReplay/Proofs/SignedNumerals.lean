import WorkloadReplay.Proofs.PositionalDigits
import WorkloadReplay.Text.Numeral

/-!
# Signed words as decimal numerals

The decimal text of a signed 64-bit word reads back as that word. A numeral starts with a digit, so
no sign in front of it is mistaken for one of its own.
-/

namespace WorkloadReplay.Numeral

theorem isNumeral_iff {ds : List UInt8} :
    isNumeral ds = true ↔ ds ≠ [] ∧ ∀ d ∈ ds, isDigit d = true := by
  simp [isNumeral]

theorem isDigit_of_mem_ofNat {n : Nat} : ∀ b ∈ ofNat n, isDigit b = true :=
  List.all_eq_true.mp (all_isDigit_ofNat n)

theorem exists_ofNat_eq_cons (n : Nat) : ∃ b rest, ofNat n = b :: rest ∧ isDigit b = true := by
  obtain ⟨b, rest, h⟩ := List.exists_cons_of_ne_nil (ofNat_ne_nil n)
  refine ⟨b, rest, h, ?_⟩
  apply isDigit_of_mem_ofNat (n := n)
  rw [h]
  exact List.mem_cons_self

theorem digitValue_lt {d : UInt8} (h : isDigit d = true) : digitValue d < 10 := by
  simp only [isDigit, Bool.and_eq_true, decide_eq_true_eq, UInt8.le_iff_toNat_le] at h
  have hle : d.toNat ≤ 57 := h.2
  rw [digitValue]
  omega

theorem digit_digitValue {d : UInt8} (h : isDigit d = true) : digit (digitValue d) = d := by
  simp only [isDigit, Bool.and_eq_true, decide_eq_true_eq, UInt8.le_iff_toNat_le] at h
  have hvalue : 0x30 + (d.toNat - 0x30) = d.toNat := Nat.add_sub_of_le h.1
  rw [digit, digitValue, hvalue, UInt8.ofNat_toNat]

theorem positional : Positional 10 digit digitValue ofNat value where
  two_le := by omega
  write_eq n := by rw [ofNat]
  read_eq _ := rfl
  value_digit hn := digitValue_digit hn
  digit_zero := rfl

theorem exists_digit_of_isDigit {ds : List UInt8} (h : ∀ d ∈ ds, isDigit d = true) :
    ∀ d ∈ ds, ∃ n, n < 10 ∧ digit n = d := by
  intro d hd
  exact ⟨digitValue d, digitValue_lt (h d hd), digit_digitValue (h d hd)⟩

theorem int?_of_digit {b : UInt8} {rest : List UInt8} (hb : isDigit b = true) :
    int? (b :: rest) = if isNumeral (b :: rest) then some (value (b :: rest) : Int) else none := by
  have hminus : b ≠ 0x2D := by
    rintro rfl
    revert hb
    decide
  have hplus : b ≠ 0x2B := by
    rintro rfl
    revert hb
    decide
  unfold int?
  split
  · simp_all
  · simp_all
  · simp only [number_eq_value]

theorem int?_ofInt (i : Int) : int? (ofInt i) = some i := by
  unfold ofInt
  split
  · simp only [int?, isNumeral_ofNat, if_true, number_eq_value, value_ofNat, Option.some.injEq]
    omega
  · obtain ⟨b, rest, h, hb⟩ := exists_ofNat_eq_cons i.natAbs
    rw [h, int?_of_digit hb, ← h]
    simp only [isNumeral_ofNat, if_true, value_ofNat, Option.some.injEq]
    omega

@[simp] theorem int64?_ofInt64 (v : Int64) : int64? (ofInt64 v) = some v := by
  have hrange : Int64.minValue.toInt ≤ v.toInt ∧ v.toInt ≤ Int64.maxValue.toInt :=
    ⟨v.minValue_le_toInt, v.toInt_le⟩
  simp only [int64?, ofInt64, int?_ofInt, Option.bind_some, word?, hrange, and_self, if_true,
    Int64.ofInt_toInt]

end WorkloadReplay.Numeral
